/-!
Hexadecimal text. A byte is written as two lower-case digits. Reading takes pairs of characters in either letter case;
a pair may also be a plus sign and one digit, which is the number text of a value below sixteen. The lemmas say that a
digit's character reads back as the digit and that written bytes read back.
-/

namespace BitTemplate.Hex

/-! ## Digits -/

/-- The value of a hexadecimal digit in either letter case. -/
def digit? (c : Char) : Option Nat :=
  if '0' ≤ c ∧ c ≤ '9' then some (c.toNat - '0'.toNat)
  else if 'a' ≤ c ∧ c ≤ 'f' then some (c.toNat - 'a'.toNat + 10)
  else if 'A' ≤ c ∧ c ≤ 'F' then some (c.toNat - 'A'.toNat + 10)
  else none

/-- The lower-case digit of a number below sixteen. -/
def lower (n : Nat) : Char :=
  if n < 10 then Char.ofNat ('0'.toNat + n) else Char.ofNat ('a'.toNat + (n - 10))

/-- The upper-case digit of a number below sixteen. -/
def upper (n : Nat) : Char :=
  if n < 10 then Char.ofNat ('0'.toNat + n) else Char.ofNat ('A'.toNat + (n - 10))

theorem digit?_lower {n : Nat} (h : n < 16) : digit? (lower n) = some n := by
  have all : ∀ k : Fin 16, digit? (lower k) = some k.val := by decide
  exact all ⟨n, h⟩

theorem digit?_upper {n : Nat} (h : n < 16) : digit? (upper n) = some n := by
  have all : ∀ k : Fin 16, digit? (upper k) = some k.val := by decide
  exact all ⟨n, h⟩

/-! ## Bytes -/

/-- The two digits of a byte. -/
def ofByte (byte : UInt8) : List Char :=
  [lower (byte.toNat / 16), lower (byte.toNat % 16)]

/-- The digits of a byte string. -/
def ofBytes (bytes : List UInt8) : String :=
  String.ofList (bytes.flatMap ofByte)

/-- The byte that a pair of characters stands for: two digits, or a plus sign and one digit. -/
def pair? (first second : Char) : Option UInt8 := do
  let low ← digit? second
  if first = '+' then return UInt8.ofNat low
  let high ← digit? first
  return UInt8.ofNat (16 * high + low)

/-- The bytes that the pairs of a text stand for; a text of odd length stands for none. -/
def pairs? : List Char → Option (List UInt8)
  | [] => some []
  | [_] => none
  | first :: second :: rest => do
    let byte ← pair? first second
    let bytes ← pairs? rest
    return byte :: bytes

/-- The bytes that a text stands for, if it is a text of pairs. -/
def toBytes? (text : String) : Option (List UInt8) :=
  pairs? text.toList

theorem pair?_ofByte (byte : UInt8) :
    pair? (lower (byte.toNat / 16)) (lower (byte.toNat % 16)) = some byte := by
  have bound : byte.toNat < 256 := byte.toNat_lt
  have high : byte.toNat / 16 < 16 := by omega
  have noSign : ∀ k : Fin 16, lower k ≠ '+' := by decide
  simp only [pair?, digit?_lower (Nat.mod_lt _ (by decide : 16 > 0)), digit?_lower high, Option.bind_eq_bind,
    Option.bind_some, if_neg (noSign ⟨_, high⟩), Option.pure_def, Nat.div_add_mod, UInt8.ofNat_toNat]

theorem pairs?_flatMap_ofByte (bytes : List UInt8) : pairs? (bytes.flatMap ofByte) = some bytes := by
  induction bytes with
  | nil => rfl
  | cons byte rest ih =>
    simp only [List.flatMap_cons, ofByte, List.cons_append, List.nil_append, pairs?, pair?_ofByte,
      Option.bind_eq_bind, Option.bind_some] at ih ⊢
    rw [ih]
    rfl

/-- Written bytes read back. -/
theorem toBytes?_ofBytes (bytes : List UInt8) : toBytes? (ofBytes bytes) = some bytes := by
  simp [toBytes?, ofBytes, pairs?_flatMap_ofByte]

end BitTemplate.Hex
