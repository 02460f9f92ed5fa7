import BitTemplate.Proofs.Representable

/-!
What is read as hexadecimal text. Pairs of digits are, in either letter case, and so are pairs of a plus sign and a digit,
which are number texts too; nothing else is. Written again, the bytes give the digits of the text in lower case, with a zero
where a plus sign stood, so only texts without plus signs come back as they were.
-/

namespace BitTemplate.Hex

/-! ## Pairs -/

/-- Whether a character is a hexadecimal digit, in either letter case. -/
def IsDigit (c : Char) : Prop :=
  ('0' ≤ c ∧ c ≤ '9') ∨ ('a' ≤ c ∧ c ≤ 'f') ∨ ('A' ≤ c ∧ c ≤ 'F')

instance : DecidablePred IsDigit := fun _ => inferInstanceAs (Decidable (_ ∨ _))

/-- The digit that a character of a pair stands for when the byte is written again. -/
def rewritten (c : Char) : Char :=
  if c = '+' then '0' else c.toLower

variable {first second : Char}

theorem isDigit_iff {c : Char} : IsDigit c ↔ ∃ n, digit? c = some n := by
  unfold IsDigit digit?
  split
  · simp [*]
  · split
    · simp [*]
    · split <;> simp [*]

theorem rewritten_of_digit? {c : Char} {n : Nat} (h : digit? c = some n) : rewritten c = lower n := by
  have noSign : c ≠ '+' := by
    rintro rfl
    cases h
  rw [rewritten, if_neg noSign, (digit?_some h).2.1]

theorem ofByte_ofNat {high low : Nat} (big : high < 16) (small : low < 16) :
    ofByte (UInt8.ofNat (16 * high + low)) = [lower high, lower low] := by
  have size : 16 * high + low < 256 := by omega
  rw [ofByte, UInt8.toNat_ofNat_of_lt' size, Nat.mul_add_div (by decide), Nat.div_eq_of_lt small, Nat.add_zero,
    Nat.mul_add_mod, Nat.mod_eq_of_lt small]

/-- A pair is a digit after another one, or after a plus sign in the place of a zero. -/
theorem pair?_some {byte : UInt8} :
    pair? first second = some byte ↔
      ∃ high low, (first = '+' ∧ high = 0 ∨ digit? first = some high) ∧ digit? second = some low
        ∧ byte = UInt8.ofNat (16 * high + low) := by
  simp only [pair?, Option.bind_eq_bind, Option.bind_eq_some_iff]
  constructor
  · rintro ⟨low, digit, h⟩
    split at h
    · cases h
      exact ⟨0, low, .inl ⟨‹_›, rfl⟩, digit, by rw [Nat.mul_zero, Nat.zero_add]⟩
    · obtain ⟨high, digit', h⟩ := Option.bind_eq_some_iff.mp h
      cases h
      exact ⟨high, low, .inr digit', digit, rfl⟩
  · rintro ⟨high, low, ⟨rfl, rfl⟩ | digit', digit, rfl⟩
    · refine ⟨low, digit, ?_⟩
      rw [if_pos rfl, Nat.mul_zero, Nat.zero_add]
      rfl
    · have noSign : first ≠ '+' := by
        rintro rfl
        cases digit'
      refine ⟨low, digit, ?_⟩
      rw [if_neg noSign, digit']
      rfl

theorem exists_pair?_iff : (∃ byte, pair? first second = some byte) ↔ (IsDigit first ∨ first = '+') ∧ IsDigit second := by
  simp only [pair?_some, isDigit_iff]
  constructor
  · rintro ⟨_, high, low, ⟨plus, _⟩ | digit', digit, _⟩
    · exact ⟨.inr plus, low, digit⟩
    · exact ⟨.inl ⟨high, digit'⟩, low, digit⟩
  · rintro ⟨⟨high, digit'⟩ | plus, low, digit⟩
    · exact ⟨_, high, low, .inr digit', digit, rfl⟩
    · exact ⟨_, 0, low, .inl ⟨plus, rfl⟩, digit, rfl⟩

/-- A byte is written as the digits of the pair that it was read from. -/
theorem ofByte_of_pair? {byte : UInt8} (h : pair? first second = some byte) :
    ofByte byte = [rewritten first, rewritten second] := by
  obtain ⟨high, low, sign, digit, rfl⟩ := pair?_some.mp h
  have small := (digit?_some digit).1
  rw [rewritten_of_digit? digit]
  rcases sign with ⟨rfl, rfl⟩ | digit'
  · exact ofByte_ofNat (by decide) small
  · rw [rewritten_of_digit? digit', ofByte_ofNat (digit?_some digit').1 small]

/-! ## Texts -/

/-- Whether a text is made of pairs: digits, and plus signs where a pair starts. -/
def Paired (text : List Char) : Prop :=
  text.length % 2 = 0 ∧ ∀ i c, text[i]? = some c → IsDigit c ∨ c = '+' ∧ i % 2 = 0

theorem paired_cons_cons {rest : List Char} :
    Paired (first :: second :: rest) ↔ (IsDigit first ∨ first = '+') ∧ IsDigit second ∧ Paired rest := by
  constructor
  · rintro ⟨even, each⟩
    refine ⟨?_, ?_, ?_, fun i c here => ?_⟩
    · simpa using each 0 first rfl
    · simpa using each 1 second rfl
    · rw [List.length_cons, List.length_cons] at even
      omega
    · simpa using each (i + 2) c here
  · rintro ⟨one, two, even, each⟩
    refine ⟨by rw [List.length_cons, List.length_cons]; omega, fun i c here => ?_⟩
    match i with
    | 0 =>
      cases here
      simpa using one
    | 1 =>
      cases here
      exact .inl two
    | i + 2 => simpa using each i c here

theorem pairs?_cons_cons {rest : List Char} {bytes : List UInt8} :
    pairs? (first :: second :: rest) = some bytes ↔
      ∃ byte others, pair? first second = some byte ∧ pairs? rest = some others ∧ byte :: others = bytes := by
  simp only [pairs?, Option.bind_eq_bind, Option.bind_eq_some_iff, Option.pure_def, Option.some.injEq]
  constructor
  · rintro ⟨byte, pair, others, later, same⟩
    exact ⟨byte, others, pair, later, same⟩
  · rintro ⟨byte, others, pair, later, same⟩
    exact ⟨byte, pair, others, later, same⟩

/-- The texts that are read are those made of pairs. -/
theorem exists_pairs?_iff {text : List Char} : (∃ bytes, pairs? text = some bytes) ↔ Paired text := by
  induction text using pairs?.induct with
  | case1 => simp [pairs?, Paired]
  | case2 c => simp [pairs?, Paired]
  | case3 first second rest ih =>
    simp only [pairs?_cons_cons, paired_cons_cons, ← ih, ← and_assoc, ← exists_pair?_iff]
    constructor
    · rintro ⟨_, byte, others, ⟨pair, later⟩, _⟩
      exact ⟨⟨byte, pair⟩, others, later⟩
    · rintro ⟨⟨byte, pair⟩, others, later⟩
      exact ⟨_, byte, others, ⟨pair, later⟩, rfl⟩

/-- Bytes are written as the digits of the text that they were read from. -/
theorem flatMap_ofByte_of_pairs? {text : List Char} {bytes : List UInt8} (h : pairs? text = some bytes) :
    bytes.flatMap ofByte = text.map rewritten := by
  induction text using pairs?.induct generalizing bytes with
  | case1 =>
    cases h
    rfl
  | case2 c => cases h
  | case3 first second rest ih =>
    obtain ⟨byte, others, pair, later, rfl⟩ := pairs?_cons_cons.mp h
    rw [List.flatMap_cons, ofByte_of_pair? pair, ih later]
    rfl

/-- Hexadecimal text is read exactly if its length is even and its characters are digits, where a plus sign may stand for
the first digit of a pair. Written again, the bytes give the text in lower case with zeros for the plus signs, and written
bytes are read back. -/
theorem pairs_read (text : String) :
    ((∃ bytes, toBytes? text = some bytes) ↔
      text.length % 2 = 0 ∧ ∀ i c, text.toList[i]? = some c → IsDigit c ∨ c = '+' ∧ i % 2 = 0)
    ∧ (∀ bytes, toBytes? text = some bytes →
      ofBytes bytes = String.ofList (text.toList.map fun c => if c = '+' then '0' else c.toLower))
    ∧ ∀ bytes, toBytes? (ofBytes bytes) = some bytes := by
  refine ⟨?_, fun bytes read => ?_, toBytes?_ofBytes⟩
  · rw [← String.length_toList]
    exact exists_pairs?_iff
  · rw [ofBytes, flatMap_ofByte_of_pairs? read]
    rfl

/-- Digits in both cases, and a plus sign before one. -/
theorem pairs_read_signed :
    toBytes? "c0FFee+A" = some [0xc0, 0xff, 0xee, 0x0a] ∧ ofBytes [0xc0, 0xff, 0xee, 0x0a] = "c0ffee0a"
      ∧ "c0FFee+A".length % 2 = 0 ∧ IsDigit 'A' := by
  have read : toBytes? "c0FFee+A" = some [0xc0, 0xff, 0xee, 0x0a] := by decide
  obtain ⟨accepted, written, _⟩ := pairs_read "c0FFee+A"
  obtain ⟨even, each⟩ := accepted.mp ⟨_, read⟩
  exact ⟨read, written _ read, even, by simpa using each 7 'A' rfl⟩

/-- A text that is not all digits is read, and what it is read as is written in another way. -/
theorem sign_accepted :
    toBytes? "+a" = some [0x0a] ∧ ¬ (∀ c ∈ "+a".toList, IsDigit c)
      ∧ ofBytes [0x0a] ≠ String.ofList ("+a".toList.map Char.toLower) := by
  have sign : '+' ∈ "+a".toList := by decide
  have noDigit : ¬ IsDigit '+' := by decide
  exact ⟨by decide, fun each => noDigit (each '+' sign), by decide⟩

end BitTemplate.Hex
