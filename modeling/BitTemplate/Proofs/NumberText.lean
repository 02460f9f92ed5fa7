import Mathlib
import BitTemplate.Double.Style

/-!
Characters of numbers. Whatever the style, the text of a number has digits, signs, a point and the mark of an exponent, and
the characters that the style brings along; no other character is in it.
-/

namespace BitTemplate

/-- A character that no number is written with. -/
structure Foreign (c : Char) : Prop where
  noDigit : c.isDigit = false
  noMark : c ∉ ['-', '.', 'e']

namespace Foreign

variable {c : Char}

theorem notMem_digits (h : Foreign c) (n : Nat) : c ∉ Nat.toDigits 10 n := by
  intro among
  have digit : c.isDigit = true := Nat.isDigit_of_mem_toDigits (by decide) (by decide) among
  rw [h.noDigit] at digit
  cases digit

theorem notMem_integer (h : Foreign c) (n : Int) : c ∉ (toString n).toList := by
  obtain ⟨noSign, _⟩ : c ≠ '-' ∧ c ∉ ['.', 'e'] := List.ne_and_not_mem_of_not_mem_cons h.noMark
  rw [Int.toString_eq_repr, Int.repr_eq_if]
  by_cases sign : 0 ≤ n
  · simpa [sign, Nat.repr_eq_ofList_toDigits] using h.notMem_digits n.toNat
  · simpa [sign, noSign, Nat.repr_eq_ofList_toDigits] using h.notMem_digits (-n).toNat

open Double

/-- A number that is written out has digits, zeros and a point. -/
theorem notMem_positional (h : Foreign c) (d : Decimal) (keepsPoint : Bool) :
    c ∉ (d.positional keepsPoint).toList := by
  have digits : c ∉ decimalDigits d.digits := h.notMem_digits d.digits
  have front (n : Nat) : c ∉ (decimalDigits d.digits).take n := fun among => digits (List.mem_of_mem_take among)
  have back (n : Nat) : c ∉ (decimalDigits d.digits).drop n := fun among => digits (List.mem_of_mem_drop among)
  have noPoint : c ≠ '.' := fun same => h.noMark (by simp [same])
  have noZero : c ≠ '0' := by
    rintro rfl
    exact absurd h.noDigit (by decide)
  unfold Decimal.positional
  by_cases whole : 0 ≤ d.exponent
  · cases keepsPoint <;> simp [whole, digits, noPoint, noZero]
  · by_cases mixed : 0 < ((decimalDigits d.digits).length : Int) + d.exponent
    · simp [whole, mixed, front, back, noPoint]
    · simp [whole, mixed, digits, noPoint, noZero]

/-- A number with an exponent part may have a sign in it. -/
theorem notMem_scientific (h : Foreign c) (d : Decimal) {plus : String} (noPlus : c ∉ plus.toList) :
    c ∉ (d.scientific plus).toList := by
  have digits : c ∉ decimalDigits d.digits := h.notMem_digits d.digits
  obtain ⟨noMinus, noPoint, noMark⟩ : c ≠ '-' ∧ c ≠ '.' ∧ c ≠ 'e' := by simpa using h.noMark
  have front : c ∉ (decimalDigits d.digits).take 1 := fun among => digits (List.mem_of_mem_take among)
  have back : c ∉ (decimalDigits d.digits).drop 1 := fun among => digits (List.mem_of_mem_drop among)
  have fraction : c ∉ (if ((decimalDigits d.digits).drop 1).isEmpty then ""
      else "." ++ String.ofList ((decimalDigits d.digits).drop 1)).toList := by
    split_ifs
    · simp
    · simp [-List.drop_one, noPoint, back]
  have sign : c ∉ (if d.leading < 0 then "-" else plus).toList := by
    split_ifs
    · simp [noMinus]
    · exact noPlus
  have exponent : c ∉ (toString d.leading.natAbs).toList := by
    rw [Nat.toString_eq_ofList_toDigits, String.toList_ofList]
    exact h.notMem_digits _
  simp only [Decimal.scientific, String.toList_append, String.toList_ofList, List.mem_append, not_or]
  exact ⟨⟨⟨⟨front, fraction⟩, by simp [noMark]⟩, sign⟩, exponent⟩

/-- The text of a number has no other characters than these and those of its style. -/
theorem notMem_write (h : Foreign c) (style : Style) (x : Double) (noPlus : c ∉ style.plus.toList)
    (named : x.isFinite = false → c ∉ (style.notFinite x).toList) : c ∉ (style.write x).toList := by
  have noMinus : c ≠ '-' := fun same => h.noMark (by simp [same])
  unfold Style.write
  cases finite : x.isFinite with
  | false => simpa using named finite
  | true =>
    simp only [if_true, String.toList_append, List.mem_append, not_or]
    constructor
    · split_ifs <;> simp [noMinus]
    · split_ifs
      · exact h.notMem_positional _ _
      · exact h.notMem_scientific _ noPlus

end Foreign

end BitTemplate
