import Mathlib.Data.Nat.Digits.Defs
import BitTemplate.Proofs.RestWidth

/-!
What fields can hold. Bits of every width that an encoding admits can be read, and the value that they are read as is
written in that width as the same bits. A value can be written in a field of a given width exactly if the width holds
its integer, the number that its digits spell, or its bytes; the field is then read as the same integer, the same digits
up to leading zeros and letter case, or the same bytes. Digits are compared through the number that they spell: it tells
whether they fit, and digits of the same number differ in leading zeros only.
-/

namespace BitTemplate

/-! ## Leading zeros -/

section

variable {base : Nat} {a b : List Nat}

/-- Digits of the same number differ in leading zeros only. -/
theorem eq_replicate_append_of_ofDigits (one_lt : 1 < base) (digitsA : ∀ n ∈ a, n < base) (digitsB : ∀ n ∈ b, n < base)
    (same : Nat.ofDigits base a.reverse = Nat.ofDigits base b.reverse) (shorter : a.length ≤ b.length) :
    b = List.replicate (b.length - a.length) 0 ++ a := by
  have filled : a.reverse ++ List.replicate (b.length - a.length) 0 = b.reverse := by
    apply Nat.ofDigits_inj_of_len_eq one_lt
    · simp only [List.length_append, List.length_reverse, List.length_replicate]
      omega
    · intro n hn
      rcases List.mem_append.mp hn with digit | zero
      · exact digitsA n (List.mem_reverse.mp digit)
      · rw [List.eq_of_mem_replicate zero]
        omega
    · intro n hn
      exact digitsB n (List.mem_reverse.mp hn)
    · rw [Nat.ofDigits_append_replicate_zero, same]
  rw [← List.reverse_reverse b, ← filled, List.reverse_append, List.reverse_replicate, List.reverse_reverse]
  simp

theorem dropWhile_of_ofDigits (one_lt : 1 < base) (digitsA : ∀ n ∈ a, n < base) (digitsB : ∀ n ∈ b, n < base)
    (same : Nat.ofDigits base a.reverse = Nat.ofDigits base b.reverse) :
    a.dropWhile (· == 0) = b.dropWhile (· == 0) := by
  by_cases shorter : a.length ≤ b.length
  · rw [eq_replicate_append_of_ofDigits one_lt digitsA digitsB same shorter, Field.dropWhile_replicate_append]
  · rw [eq_replicate_append_of_ofDigits one_lt digitsB digitsA same.symm (by omega), Field.dropWhile_replicate_append]

end

namespace Bits

theorem toNat_eq_ofDigits (bits : Bits) : toNat bits = Nat.ofDigits 2 (bits.map Bool.toNat).reverse := by
  induction bits with
  | nil => rfl
  | cons bit rest ih =>
    rw [toNat_cons, ih, List.map_cons, List.reverse_cons, Nat.ofDigits_append, Nat.ofDigits_singleton,
      List.length_reverse, List.length_map]
    grind

/-- Bits of the same number differ in leading zeros only. -/
theorem eq_replicate_append {a b : Bits} (same : toNat a = toNat b) (shorter : a.length ≤ b.length) :
    b = List.replicate (b.length - a.length) false ++ a := by
  have binary (bits : Bits) : ∀ n ∈ bits.map Bool.toNat, n < 2 := by
    intro n hn
    obtain ⟨bit, _, rfl⟩ := List.mem_map.mp hn
    exact bit.toNat_lt
  rw [toNat_eq_ofDigits, toNat_eq_ofDigits] at same
  have digits := eq_replicate_append_of_ofDigits (by decide) (binary a) (binary b) same (by simpa using shorter)
  apply (List.map_inj_right (f := Bool.toNat) (by decide)).mp
  rw [digits, List.map_append, List.map_replicate, List.length_map, List.length_map]
  rfl

end Bits

theorem Hex.digit?_some {c : Char} {n : Nat} (h : Hex.digit? c = some n) :
    n < 16 ∧ c.toLower = Hex.lower n ∧ (c = '0' ↔ n = 0) := by
  have ascii : ∀ k : Fin 128, ∀ n ∈ Hex.digit? (Char.ofNat k),
      n < 16 ∧ (Char.ofNat k).toLower = Hex.lower n ∧ (Char.ofNat k = '0' ↔ n = 0) := by
    decide +kernel
  have last : c ≤ 'f' := by
    simp only [Hex.digit?] at h
    split at h
    · exact Char.le_trans (And.right ‹_›) (by decide)
    · split at h
      · exact And.right ‹_›
      · split at h
        · exact Char.le_trans (And.right ‹_›) (by decide)
        · cases h
  have small : c.toNat < 128 := Nat.lt_of_le_of_lt (UInt32.le_iff_toNat_le.mp (Char.le_def.mp last)) (by decide)
  have found := ascii ⟨c.toNat, small⟩ n
  rw [Char.ofNat_toNat] at found
  exact found h

namespace Field

/-! ## Digits of a value -/

/-- Values that hold digits for an encoding: digits of its own kind, or any text. -/
inductive HasDigits : Encoding → Value → String → Prop
  | lowerHex {digits : String} : HasDigits .lowerHex (.hex digits) digits
  | upperHex {digits : String} : HasDigits .upperHex (.hex digits) digits
  | bin {digits : String} : HasDigits .bin (.bin digits) digits
  | text {encoding : Encoding} {content : String} : HasDigits encoding (.text content) content

theorem digitsOf_ok {encoding : Encoding} {v : Value} {digits : String} :
    digitsOf encoding v = .ok digits ↔ HasDigits encoding v digits := by
  constructor
  · intro h
    simp only [digitsOf] at h
    split at h
    · cases h
      exact .lowerHex
    · cases h
      exact .upperHex
    · cases h
      exact .bin
    · cases h
      exact .text
    · cases h
  · intro h
    cases h with
    | lowerHex => rfl
    | upperHex => rfl
    | bin => rfl
    | text => rfl

/-- The base of the digits of an encoding. -/
def base (encoding : Encoding) : Nat :=
  if encoding = .bin then 2 else 16

/-- The value of a character as a digit of an encoding; hexadecimal digits come in either letter case. -/
def digitValue? (encoding : Encoding) (c : Char) : Option Nat :=
  if encoding = .bin then (bit? c).map Bool.toNat else Hex.digit? c

/-- The number that a text spells in the digits of an encoding, if all of its characters are digits. -/
def numberOf? (encoding : Encoding) (digits : String) : Option Nat :=
  (digits.toList.mapM (digitValue? encoding)).map fun values => Nat.ofDigits (base encoding) values.reverse

variable {encoding : Encoding}

theorem one_lt_base (encoding : Encoding) : 1 < base encoding := by
  unfold base
  split <;> decide

theorem digitValue?_some {c : Char} {n : Nat} (h : digitValue? encoding c = some n) :
    n < base encoding ∧ c.toLower = Hex.lower n ∧ (c = '0' ↔ n = 0) := by
  by_cases binary : encoding = .bin
  · rw [digitValue?, if_pos binary] at h
    rw [base, if_pos binary]
    obtain ⟨bit, found, rfl⟩ := Option.map_eq_some_iff.mp h
    simp only [bit?] at found
    split at found
    · cases found
      subst c
      decide
    · split at found
      · cases found
        subst c
        decide
      · cases found
  · rw [digitValue?, if_neg binary] at h
    rw [base, if_neg binary]
    exact Hex.digit?_some h

/-- Digits are those of their values but for letter case, also without the leading zeros. -/
theorem significant_of_values {digits : List Char} {values : List Nat}
    (h : digits.mapM (digitValue? encoding) = some values) :
    (∀ n ∈ values, n < base encoding) ∧ digits.map Char.toLower = values.map Hex.lower
      ∧ (digits.dropWhile (· == '0')).map Char.toLower = (values.dropWhile (· == 0)).map Hex.lower := by
  induction digits generalizing values with
  | nil =>
    cases h
    simp
  | cons c rest ih =>
    simp only [List.mapM_cons, Option.bind_eq_bind, Option.bind_eq_some_iff, Option.pure_def, Option.some.injEq] at h
    obtain ⟨n, first, others, later, rfl⟩ := h
    obtain ⟨small, lower, zero⟩ := digitValue?_some first
    obtain ⟨smalls, lowers, significant⟩ := ih later
    refine ⟨?_, ?_, ?_⟩
    · intro m hm
      rcases List.mem_cons.mp hm with rfl | hm
      · exact small
      · exact smalls m hm
    · rw [List.map_cons, List.map_cons, lower, lowers]
    · by_cases leading : n = 0
      · have first : c = '0' := zero.mpr leading
        rw [List.dropWhile_cons_of_pos (by simpa using first), List.dropWhile_cons_of_pos (by simpa using leading),
          significant]
      · have first : c ≠ '0' := fun h => leading (zero.mp h)
        rw [List.dropWhile_cons_of_neg (by simpa using first), List.dropWhile_cons_of_neg (by simpa using leading),
          List.map_cons, List.map_cons, lower, lowers]

/-- Digits of the same number agree up to leading zeros and letter case. -/
theorem sameDigits_of_numberOf? {a b : String} {n : Nat} (numberA : numberOf? encoding a = some n)
    (numberB : numberOf? encoding b = some n) : Encoder.sameDigits a b = true := by
  obtain ⟨valuesA, readA, spelledA⟩ := Option.map_eq_some_iff.mp numberA
  obtain ⟨valuesB, readB, spelledB⟩ := Option.map_eq_some_iff.mp numberB
  obtain ⟨digitsA, _, significantA⟩ := significant_of_values readA
  obtain ⟨digitsB, _, significantB⟩ := significant_of_values readB
  have same := dropWhile_of_ofDigits (one_lt_base encoding) digitsA digitsB (spelledA.trans spelledB.symm)
  rw [Encoder.sameDigits, Encoder.significant, Encoder.significant, significantA, significantB, same, beq_self_eq_true]

theorem length_flatMap_ofNat (values : List Nat) : (values.flatMap (Bits.ofNat 4)).length = 4 * values.length := by
  induction values with
  | nil => rfl
  | cons n rest ih =>
    rw [List.flatMap_cons, List.length_append, Bits.length_ofNat, ih, List.length_cons]
    omega

theorem toNat_flatMap_ofNat {values : List Nat} (digits : ∀ n ∈ values, n < 16) :
    Bits.toNat (values.flatMap (Bits.ofNat 4)) = Nat.ofDigits 16 values.reverse := by
  induction values with
  | nil => rfl
  | cons n rest ih =>
    rw [List.flatMap_cons, Bits.toNat_append, Bits.toNat_ofNat_of_lt (digits n (by simp)),
      ih (fun m hm => digits m (by simp [hm])), length_flatMap_ofNat, Nat.pow_mul, List.reverse_cons,
      Nat.ofDigits_append, Nat.ofDigits_singleton, List.length_reverse]
    grind

theorem numberOf?_hex (hex : encoding = .lowerHex ∨ encoding = .upperHex) (digits : String) :
    numberOf? encoding digits = (bitsOfHex? digits.toList).map Bits.toNat := by
  have other : encoding ≠ .bin := by
    rcases hex with rfl | rfl <;> decide
  have values : digitValue? encoding = Hex.digit? := funext fun c => if_neg other
  rw [numberOf?, values, bitsOfHex?, base, if_neg other]
  cases read : digits.toList.mapM Hex.digit? with
  | none => rfl
  | some values =>
    have digits := (@significant_of_values .lowerHex _ _ read).1
    exact congrArg some (toNat_flatMap_ofNat digits).symm

theorem numberOf?_bin (digits : String) : numberOf? .bin digits = (bitsOfBin? digits.toList).map Bits.toNat := by
  have values (cs : List Char) : cs.mapM (digitValue? .bin) = (cs.mapM bit?).map (List.map Bool.toNat) := by
    induction cs with
    | nil => rfl
    | cons c rest ih =>
      rw [List.mapM_cons, List.mapM_cons, ih, digitValue?, if_pos rfl]
      cases bit? c with
      | none => rfl
      | some bit => cases rest.mapM bit? <;> rfl
  rw [numberOf?, values, bitsOfBin?]
  cases digits.toList.mapM bit? with
  | none => rfl
  | some bits => exact congrArg some (Bits.toNat_eq_ofDigits bits).symm

theorem toNat_of_fit {v : Value} {own bits : Bits} {width : Nat} (h : fit encoding v own (some width) = .ok bits) :
    bits.toNat = own.toNat := by
  simp only [fit] at h
  split at h
  · split at h
    · cases h
    · rename_i zeros
      cases h
      have front : own.take (own.length - width) = List.replicate (own.length - width) false := by
        rw [List.eq_replicate_iff, List.length_take]
        refine ⟨by omega, fun bit hbit => ?_⟩
        cases bit with
        | false => rfl
        | true => exact absurd (List.any_eq_true.mpr ⟨true, hbit, rfl⟩) zeros
      have split := List.take_append_drop (own.length - width) own
      rw [front] at split
      rw [← Bits.toNat_replicate_append, split]
  · cases h
    rw [Bits.toNat_replicate_append]

/-- Digits are written in a field that holds their number, as the bits of that number. -/
theorem fit_ok {v : Value} {own bits : Bits} {width : Nat} :
    fit encoding v own (some width) = .ok bits ↔ own.toNat < 2 ^ width ∧ bits = Bits.ofNat width own.toNat := by
  constructor
  · intro h
    have length := length_of_fit h
    have number := toNat_of_fit h
    have small := bits.toNat_lt
    have same := Bits.ofNat_toNat bits
    rw [length, number] at small same
    exact ⟨small, same.symm⟩
  · intro h
    obtain ⟨small, field⟩ := h
    have number : bits.toNat = own.toNat := by rw [field, Bits.toNat_ofNat_of_lt small]
    have length : bits.length = width := by rw [field, Bits.length_ofNat]
    by_cases wide : width ≤ own.length
    · have zeros := Bits.eq_replicate_append number (by omega)
      rw [length] at zeros
      rw [zeros, ← length]
      exact fit_replicate_append _ _
    · have zeros := Bits.eq_replicate_append number.symm (by omega)
      rw [length] at zeros
      rw [fit, if_neg wide, ← zeros]

theorem encodeDigits_some_ok {bits? : List Char → Option Bits} {v : Value} {width : Nat} {bits : Bits}
    (reads : ∀ digits, numberOf? encoding digits = (bits? digits.toList).map Bits.toNat) :
    encodeDigits encoding bits? v (some width) = .ok bits ↔ ∃ digits n, HasDigits encoding v digits
      ∧ numberOf? encoding digits = some n ∧ n < 2 ^ width ∧ bits = Bits.ofNat width n := by
  constructor
  · intro h
    obtain ⟨digits, own, held, read, fits⟩ := encodeDigits_ok.mp h
    obtain ⟨small, field⟩ := fit_ok.mp fits
    exact ⟨digits, own.toNat, digitsOf_ok.mp held, by rw [reads, read]; rfl, small, field⟩
  · intro h
    obtain ⟨digits, n, held, number, small, field⟩ := h
    rw [reads] at number
    obtain ⟨own, read, rfl⟩ := Option.map_eq_some_iff.mp number
    exact encodeDigits_ok.mpr ⟨digits, own, digitsOf_ok.mpr held, read, fit_ok.mpr ⟨small, field⟩⟩

/-! ## Fields -/

/-- The values that a field of a width can be written for. -/
def Fits (encoding : Encoding) (v : Value) (width : Nat) : Prop :=
  match encoding with
  | .uint => width ≤ 128 ∧ ∃ n, v.integer? = some n ∧ 0 ≤ n ∧ n < 2 ^ width
  | .sint => 1 ≤ width ∧ width ≤ 128 ∧ ∃ n, v.integer? = some n ∧ -2 ^ (width - 1) ≤ n ∧ n < 2 ^ (width - 1)
  | .bytes | .char => ∃ content, bytesOf encoding v = .ok content ∧ width = 8 * content.length
  | .float => (width = 32 ∨ width = 64) ∧ ∃ x, floatOf v = .ok x
  | .lowerHex | .upperHex | .bin =>
    ∃ digits n, HasDigits encoding v digits ∧ numberOf? encoding digits = some n ∧ n < 2 ^ width

/-- What a field may be read as that was written for a value: the same integer, the same digits up to leading zeros and
letter case, or the same bytes. -/
inductive Preserves : Encoding → Value → Value → Prop
  | uint {v : Value} {n : BitVec 128} (number : v.integer? = some (n.toNat : Int)) : Preserves .uint v (.uint n)
  | sint {v : Value} {n : BitVec 128} (number : v.integer? = some n.toInt) : Preserves .sint v (.sint n)
  | hex {encoding : Encoding} {v : Value} {written read : String} (hex : encoding = .lowerHex ∨ encoding = .upperHex)
      (held : HasDigits encoding v written) (same : Encoder.sameDigits written read = true) :
      Preserves encoding v (.hex read)
  | bin {v : Value} {written read : String} (held : HasDigits .bin v written)
      (same : Encoder.sameDigits written read = true) : Preserves .bin v (.bin read)
  | bytes {v : Value} {content : List UInt8} (held : bytesOf .bytes v = .ok content) :
      Preserves .bytes v (.bytes content)
  | char {v : Value} {content : List UInt8} (held : bytesOf .char v = .ok content) :
      Preserves .char v (.text (String.ofList (content.map fun byte => Char.ofNat byte.toNat)))

variable {v : Value} {width : Nat} {bits : Bits}

theorem exists_encodeUnsigned : (∃ bits, encodeUnsigned v (some width) = .ok bits) ↔ Fits .uint v width := by
  constructor
  · intro h
    obtain ⟨bits, h⟩ := h
    obtain ⟨n, number, narrow, small, _⟩ := encodeUnsigned_ok.mp h
    rw [Option.getD_some] at narrow small
    exact ⟨narrow, n, Value.unsigned?_eq_some.mp number, by omega, by exact_mod_cast small⟩
  · intro h
    obtain ⟨narrow, n, number, positive, small⟩ := h
    obtain ⟨m, rfl⟩ := Int.eq_ofNat_of_zero_le positive
    exact ⟨_, encodeUnsigned_ok.mpr ⟨m, Value.unsigned?_eq_some.mpr number, narrow, by exact_mod_cast small, rfl⟩⟩

theorem exists_encodeSigned : (∃ bits, encodeSigned v (some width) = .ok bits) ↔ Fits .sint v width := by
  constructor
  · intro h
    obtain ⟨bits, h⟩ := h
    obtain ⟨n, number, narrow, some_bits, low, high, _⟩ := encodeSigned_ok.mp h
    rw [Option.getD_some] at narrow some_bits low high
    exact ⟨by omega, narrow, n, (Value.signed?_eq_some.mp number).1, low, high⟩
  · intro h
    obtain ⟨some_bits, narrow, n, number, low, high⟩ := h
    have limit : (2 : Int) ^ (width - 1) ≤ 2 ^ 127 := by
      exact_mod_cast Nat.pow_le_pow_right (by decide : 0 < 2) (by omega : width - 1 ≤ 127)
    have signed : v.signed? = some n := Value.signed?_eq_some.mpr ⟨number, by omega⟩
    exact ⟨_, encodeSigned_ok.mpr ⟨n, signed, narrow, Nat.ne_of_gt some_bits, low, high, rfl⟩⟩

theorem exists_encodeBytes : (∃ bits, encodeBytes encoding v (some width) = .ok bits)
    ↔ ∃ content, bytesOf encoding v = .ok content ∧ width = 8 * content.length := by
  constructor
  · intro h
    obtain ⟨bits, h⟩ := h
    obtain ⟨content, found, same, _⟩ := encodeBytes_ok.mp h
    exact ⟨content, found, same⟩
  · intro h
    obtain ⟨content, found, same⟩ := h
    exact ⟨_, encodeBytes_ok.mpr ⟨content, found, same, rfl⟩⟩

theorem exists_encodeDigits {bits? : List Char → Option Bits}
    (reads : ∀ digits, numberOf? encoding digits = (bits? digits.toList).map Bits.toNat) :
    (∃ bits, encodeDigits encoding bits? v (some width) = .ok bits)
      ↔ ∃ digits n, HasDigits encoding v digits ∧ numberOf? encoding digits = some n ∧ n < 2 ^ width := by
  constructor
  · intro h
    obtain ⟨bits, h⟩ := h
    obtain ⟨digits, n, held, number, small, _⟩ := (encodeDigits_some_ok reads).mp h
    exact ⟨digits, n, held, number, small⟩
  · intro h
    obtain ⟨digits, n, held, number, small⟩ := h
    exact ⟨_, (encodeDigits_some_ok reads).mpr ⟨digits, n, held, number, small, rfl⟩⟩

/-- Digits are read as digits of the number for which they were written. -/
theorem sameDigits_of_encode {bits? : List Char → Option Bits} {read : String}
    (reads : ∀ digits, numberOf? encoding digits = (bits? digits.toList).map Bits.toNat)
    (back : ∃ filled, bits? read.toList = some filled ∧ Bits.toNat filled = bits.toNat)
    (h : encodeDigits encoding bits? v (some width) = .ok bits) :
    ∃ written, HasDigits encoding v written ∧ Encoder.sameDigits written read = true := by
  obtain ⟨written, n, held, number, small, rfl⟩ := (encodeDigits_some_ok reads).mp h
  obtain ⟨filled, found, same⟩ := back
  rw [Bits.toNat_ofNat_of_lt small] at same
  refine ⟨written, held, sameDigits_of_numberOf? number ?_⟩
  rw [reads, found, Option.map_some, same]

theorem preserves_hex {digit : Nat → Char} (hex : encoding = .lowerHex ∨ encoding = .upperHex)
    (digits : ∀ n < 16, Hex.digit? (digit n) = some n)
    (h : encodeDigits encoding bitsOfHex? v (some width) = .ok bits) :
    Preserves encoding v (.hex (hexDigits digit bits)) := by
  have back := bitsOfHex?_hexDigits digits bits
  obtain ⟨written, held, same⟩ := sameDigits_of_encode (numberOf?_hex hex)
    ⟨_, back, Bits.toNat_replicate_append _ bits⟩ h
  exact .hex hex held same

/-- A field is read as what it was written for. -/
theorem preserves_of_encode (exact : encoding ≠ .float) (h : encode encoding v (some width) = .ok bits) :
    ∃ back, decode encoding bits = .ok back ∧ Preserves encoding v back := by
  obtain ⟨back, decoded⟩ := exists_decode exact h
  refine ⟨back, decoded, ?_⟩
  cases encoding with
  | uint =>
    have number := unsigned?_of_decode h decoded
    obtain ⟨m, rfl⟩ := uint_of_decode decoded
    exact .uint (Value.unsigned?_eq_some.mp number.symm)
  | sint =>
    have number := signed?_of_decode h decoded
    obtain ⟨m, rfl⟩ := sint_of_decode decoded
    exact .sint (Value.signed?_eq_some.mp number.symm).1
  | lowerHex =>
    cases decoded
    exact preserves_hex (.inl rfl) (fun _ => Hex.digit?_lower) h
  | upperHex =>
    cases decoded
    exact preserves_hex (.inr rfl) (fun _ => Hex.digit?_upper) h
  | bin =>
    cases decoded
    obtain ⟨written, held, same⟩ := sameDigits_of_encode numberOf?_bin ⟨_, bitsOfBin?_toDigits bits, rfl⟩ h
    exact .bin held same
  | bytes =>
    obtain ⟨content, held, _, rfl⟩ := encodeBytes_ok.mp h
    obtain ⟨_, rfl⟩ := decode_bytes_ok.mp decoded
    rw [Bits.toBytes_ofBytes]
    exact .bytes held
  | char =>
    obtain ⟨content, held, _, rfl⟩ := encodeBytes_ok.mp h
    obtain ⟨_, rfl⟩ := decode_char_ok.mp decoded
    rw [Bits.toBytes_ofBytes]
    exact .char held
  | float => exact absurd rfl exact

theorem exists_encodeFloat : (∃ bits, encodeFloat v (some width) = .ok bits) ↔ Fits .float v width := by
  simp only [encodeFloat, except_bind_ok, Option.getD_some]
  constructor
  · intro h
    obtain ⟨bits, x, number, h⟩ := h
    refine ⟨?_, x, number⟩
    split at h
    · exact .inl ‹_›
    · split at h
      · exact .inr ‹_›
      · cases h
  · intro h
    obtain ⟨sizes, x, number⟩ := h
    obtain rfl | rfl := sizes
    · exact ⟨_, x, number, rfl⟩
    · exact ⟨_, x, number, rfl⟩

theorem exists_encode : (∃ bits, encode encoding v (some width) = .ok bits) ↔ Fits encoding v width := by
  cases encoding with
  | uint => exact exists_encodeUnsigned
  | sint => exact exists_encodeSigned
  | lowerHex => exact exists_encodeDigits (numberOf?_hex (.inl rfl))
  | upperHex => exact exists_encodeDigits (numberOf?_hex (.inr rfl))
  | bin => exact exists_encodeDigits numberOf?_bin
  | bytes => exact exists_encodeBytes
  | char => exact exists_encodeBytes
  | float => exact exists_encodeFloat

/-- A field can be read exactly if its encoding admits its width, and the value that it is read as is written in that
width as the same bits. -/
theorem bits_survive (exact : encoding ≠ .float) (bits : Bits) :
    ((∃ v, decode encoding bits = .ok v) ↔ Admits encoding bits.length)
      ∧ ∀ v, decode encoding bits = .ok v → encode encoding v (some bits.length) = .ok bits :=
  ⟨exists_decode_iff, fun _ decoded => encode_decode exact decoded⟩

theorem bits_survive_negative :
    Encoding.sint ≠ .float ∧ decode .sint [true, true, false] = .ok (.sint (-2))
      ∧ encode .sint (.sint (-2)) (some 3) = .ok [true, true, false] := by
  have decoded : decode .sint [true, true, false] = .ok (.sint (-2)) := rfl
  exact ⟨by decide, decoded, (bits_survive (by decide) _).2 _ decoded⟩

/-- A value can be written in a field exactly if it fits; the field has the given width, and it is read as what it was
written for. -/
theorem encode_fits (encoding : Encoding) (v : Value) (width : Nat) :
    ((∃ bits, encode encoding v (some width) = .ok bits) ↔ Fits encoding v width)
      ∧ (encoding ≠ .float → ∀ bits, encode encoding v (some width) = .ok bits →
        bits.length = width ∧ ∃ back, decode encoding bits = .ok back ∧ Preserves encoding v back) :=
  ⟨exists_encode, fun exact _ encoded => ⟨length_of_encode encoded, preserves_of_encode exact encoded⟩⟩

/-- Three digits that five bits hold are read as two digits of the other letter case. -/
theorem encode_fits_digits :
    encode .upperHex (.text "01f") (some 5) = .ok [true, true, true, true, true]
      ∧ Encoding.upperHex ≠ .float ∧ Fits .upperHex (.text "01f") 5
      ∧ ∃ back, decode .upperHex [true, true, true, true, true] = .ok back
        ∧ Preserves .upperHex (.text "01f") back := by
  have encoded : encode .upperHex (.text "01f") (some 5) = .ok [true, true, true, true, true] := rfl
  obtain ⟨accepts, kept⟩ := encode_fits .upperHex (.text "01f") 5
  exact ⟨encoded, by decide, accepts.mp ⟨_, encoded⟩, (kept (by decide) _ encoded).2⟩

end Field

end BitTemplate
