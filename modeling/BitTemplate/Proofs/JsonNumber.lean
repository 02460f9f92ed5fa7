import Mathlib
import BitTemplate.Json.Number

/-!
The integers of 128 bits as JSON numbers. The reader takes the digits of an integer that 64 bits hold as that integer.
Past them the number is scaled by a power of ten, which never leaves the finite floating-point numbers here, so the
digits of every integer of 128 bits are read.
-/

namespace BitTemplate

/-! ## Bounds of rounded numbers -/

theorem roundQuotient_le {num den : Nat} : roundQuotient num den ≤ num / den + 1 := by
  unfold roundQuotient
  simp only
  split
  · exact Nat.le_succ _
  · split
    · exact Nat.le_refl _
    · omega

/-- The leading exponent of a fraction is that of its powers of two, or the one before it. -/
theorem leadingExponent_bounds (num den : Nat) :
    (num.log2 : Int) - den.log2 - 1 ≤ leadingExponent num den ∧ leadingExponent num den ≤ (num.log2 : Int) - den.log2 := by
  unfold leadingExponent
  simp only
  split <;> omega

/-- The quotient of a fraction in units of a power of two has no more binary digits than the exponents leave. -/
theorem inUnits_div_lt {num den : Nat} {exponent : Int} {digits : Nat} (positive : 0 < den)
    (enough : (num.log2 : Int) + 1 - den.log2 - exponent ≤ digits) :
    (inUnits num den exponent).1 / (inUnits num den exponent).2 < 2 ^ digits := by
  simp only [inUnits, Nat.shiftLeft_eq]
  have above : num < 2 ^ (num.log2 + 1) := Nat.lt_log2_self
  have below : 2 ^ den.log2 ≤ den := Nat.log2_self_le (Nat.pos_iff_ne_zero.mp positive)
  rw [Nat.div_lt_iff_lt_mul (Nat.mul_pos positive (Nat.two_pow_pos _))]
  calc num * 2 ^ (-exponent).toNat
      < 2 ^ (num.log2 + 1) * 2 ^ (-exponent).toNat := Nat.mul_lt_mul_of_pos_right above (Nat.two_pow_pos _)
    _ = 2 ^ (num.log2 + 1 + (-exponent).toNat) := (Nat.pow_add ..).symm
    _ ≤ 2 ^ (digits + den.log2 + exponent.toNat) := Nat.pow_le_pow_right (by decide) (by omega)
    _ = 2 ^ digits * (2 ^ den.log2 * 2 ^ exponent.toNat) := by rw [Nat.pow_add, Nat.pow_add, Nat.mul_assoc]
    _ ≤ 2 ^ digits * (den * 2 ^ exponent.toNat) :=
      Nat.mul_le_mul_left _ (Nat.mul_le_mul_right _ below)

/-- A fraction below a power of two is rounded to a pattern with no larger exponent than this power allows. -/
theorem FloatFormat.round_wide_le {num den size : Nat} (positive : 0 < den) (below : num < den * 2 ^ size) :
    FloatFormat.wide.round num den ≤ (size + 1026) * 2 ^ 52 := by
  unfold FloatFormat.round
  by_cases zero : num = 0
  · rw [if_pos zero]
    exact Nat.zero_le _
  · rw [if_neg zero]
    have logs : num.log2 ≤ den.log2 + size := by
      have top : den < 2 ^ (den.log2 + 1) := Nat.lt_log2_self
      have less : num < 2 ^ (den.log2 + size + 1) := by
        calc num < den * 2 ^ size := below
          _ ≤ 2 ^ (den.log2 + 1) * 2 ^ size := Nat.mul_le_mul_right _ (Nat.le_of_lt top)
          _ = 2 ^ (den.log2 + size + 1) := by rw [← Nat.pow_add]; congr 1; omega
      exact Nat.lt_succ_iff.mp ((Nat.log2_lt zero).mpr less)
    obtain ⟨low, high⟩ := leadingExponent_bounds num den
    simp only [FloatFormat.wide]
    set exponent := max (leadingExponent num den - (53 - 1 : Nat)) (-1074) with chosen
    have quotient : (inUnits num den exponent).1 / (inUnits num den exponent).2 < 2 ^ 54 :=
      inUnits_div_lt positive (by omega)
    have rounded : roundQuotient (inUnits num den exponent).1 (inUnits num den exponent).2 ≤ 2 ^ 54 :=
      Nat.le_trans roundQuotient_le quotient
    have steps : (exponent - -1074).toNat ≤ size + 1022 := by omega
    refine Nat.le_trans (Nat.min_le_left ..) ?_
    rw [Nat.shiftLeft_eq]
    calc _ ≤ (size + 1022) * 2 ^ 52 + 2 ^ 54 := Nat.add_le_add (Nat.mul_le_mul_right _ steps) rounded
      _ = (size + 1026) * 2 ^ 52 := by omega

namespace Double

variable {num den size : Nat}

theorem magnitude_ofFraction (positive : 0 < den) (below : num < den * 2 ^ size) (bound : size ≤ 1000) :
    (ofFraction false num den).magnitude ≤ (size + 1026) * 2 ^ 52 := by
  have pattern := FloatFormat.round_wide_le positive below
  have small : FloatFormat.wide.round num den < 2 ^ 63 := by omega
  have same : (ofFraction false num den).magnitude = FloatFormat.wide.round num den := by
    simp only [ofFraction, ofMagnitude, magnitude, Bool.false_eq_true, if_false, Nat.add_zero, UInt64.toNat_ofNat']
    rw [Nat.mod_eq_of_lt (Nat.lt_trans small (by decide)), Nat.shiftLeft_eq, Nat.one_mul, Nat.mod_eq_of_lt small]
  rw [same]
  exact pattern

/-- A fraction below a power of two that is not too large is rounded to a finite number. -/
theorem isFinite_ofFraction (positive : 0 < den) (below : num < den * 2 ^ size) (bound : size ≤ 1000) :
    (ofFraction false num den).isFinite = true := by
  have magnitude := magnitude_ofFraction positive below bound
  rw [isFinite, decide_eq_true_eq]
  show (ofFraction false num den).magnitude < 0x7ff0000000000000
  omega

/-- The number that it is rounded to is below a power of two too. -/
theorem fraction_ofFraction (positive : 0 < den) (below : num < den * 2 ^ size) (bound : size ≤ 1000) :
    (ofFraction false num den).fraction.1 < (ofFraction false num den).fraction.2 * 2 ^ (size + 4)
      ∧ 0 < (ofFraction false num den).fraction.2 := by
  have magnitude := magnitude_ofFraction positive below bound
  generalize ofFraction false num den = x at magnitude ⊢
  have parts : x.parts.1 < 2 ^ 53 ∧ x.parts.2 + 49 ≤ size := by
    have low := Nat.mod_lt x.magnitude (by decide : 0 < 1 <<< 52)
    simp only [Double.parts]
    rw [Nat.shiftRight_eq_div_pow]
    split <;> simp only <;> omega
  simp only [fraction, Nat.shiftLeft_eq, Nat.one_mul]
  refine ⟨?_, Nat.two_pow_pos _⟩
  calc x.parts.1 * 2 ^ x.parts.2.toNat
      < 2 ^ 53 * 2 ^ x.parts.2.toNat := Nat.mul_lt_mul_of_pos_right parts.1 (Nat.two_pow_pos _)
    _ = 2 ^ (53 + x.parts.2.toNat) := (Nat.pow_add ..).symm
    _ ≤ 2 ^ ((-x.parts.2).toNat + (size + 4)) := Nat.pow_le_pow_right (by decide) (by omega)
    _ = 2 ^ (-x.parts.2).toNat * 2 ^ (size + 4) := Nat.pow_add ..

end Double

namespace Json

/-! ## Scaling -/

/-- A significand of 64 bits times a power of ten as the digits of 128 bits need it is finite. -/
theorem scaled?_isSome {significand exponent : Nat} (small : significand < 2 ^ 64) (few : exponent ≤ 39) :
    (scaled? significand exponent).isSome = true := by
  have power : 1 * Nat.pow 10 exponent < Nat.pow 10 0 * 2 ^ 130 := by
    calc 1 * 10 ^ exponent = 10 ^ exponent := Nat.one_mul _
      _ ≤ 10 ^ 39 := Nat.pow_le_pow_right (by decide) few
      _ < 1 * 2 ^ 130 := by decide
  have left := @Double.fraction_ofFraction significand 1 64 (by decide) (by omega) (by decide)
  have right := @Double.fraction_ofFraction _ _ 130 (by decide) power (by decide)
  have x : Double.ofInt significand = Double.ofFraction false significand 1 := rfl
  have y : powerOfTen exponent = Double.ofFraction false (1 * Nat.pow 10 exponent) (Nat.pow 10 0) := by
    rw [powerOfTen, Double.ofDecimal, Int.toNat_natCast]
    simp
  rw [← x] at left
  rw [← y] at right
  have product := Nat.mul_lt_mul'' left.1 right.1
  rw [Nat.mul_mul_mul_comm, ← Nat.pow_add] at product
  have finite : ((Double.ofInt significand).mulMagnitude (powerOfTen exponent)).isFinite = true :=
    Double.isFinite_ofFraction (Nat.mul_pos left.2 right.2) product (by decide)
  have few : (exponent : Int) ≤ 308 := by omega
  unfold scaled?
  simp only
  rw [if_neg (Int.not_lt.mpr (Int.natCast_nonneg exponent)), if_pos few, Int.toNat_natCast, if_pos finite]
  rfl

/-! ## Digits -/

theorem digit?_of_isDigit {c : Char} (h : c.isDigit = true) : digit? c = some (c.toNat - '0'.toNat) := by
  simp only [Char.isDigit, Bool.and_eq_true, decide_eq_true_eq] at h
  rw [digit?, if_pos ⟨h.1, h.2⟩]

/-- A text at which a number ends. -/
def EndsNumber (text : List Char) : Prop :=
  ∀ c rest, text = c :: rest → digit? c = none ∧ c ≠ '.' ∧ c ≠ 'e' ∧ c ≠ 'E'

theorem EndsNumber.startsWithDigit {text : List Char} (h : EndsNumber text) : startsWithDigit text = false := by
  cases text with
  | nil => rfl
  | cons c rest =>
    rw [Json.startsWithDigit, (h c rest rfl).1]
    rfl

section

variable {bound acc count : Nat} {digits tail : List Char}

/-- What follows the digits stays behind them. -/
theorem takeDigits_append (all : ∀ c ∈ digits, c.isDigit = true) (ends : startsWithDigit tail = false) :
    takeDigits bound acc count (digits ++ tail) = ((takeDigits bound acc count digits).1,
      (takeDigits bound acc count digits).2.1, (takeDigits bound acc count digits).2.2 ++ tail) := by
  induction digits generalizing acc count with
  | nil =>
    cases tail with
    | nil => rfl
    | cons c rest =>
      have none : digit? c = none := Option.isNone_iff_eq_none.mp (Option.isSome_eq_false_iff.mp ends)
      simp only [List.nil_append, takeDigits, none]
  | cons c rest ih =>
    have digit := digit?_of_isDigit (all c (by simp))
    simp only [List.cons_append, takeDigits, digit]
    split
    · exact ih (fun c hc => all c (by simp [hc]))
    · rfl

/-- The digits taken make a number below the bound, and none is left exactly if all of them do. -/
theorem takeDigits_eq (all : ∀ c ∈ digits, c.isDigit = true) (small : acc < bound) :
    ∃ taken left, digits = taken ++ left
      ∧ takeDigits bound acc count digits = (Nat.ofDigitChars 10 taken acc, count + taken.length, left)
      ∧ Nat.ofDigitChars 10 taken acc < bound ∧ (left = [] ↔ Nat.ofDigitChars 10 digits acc < bound) := by
  induction digits generalizing acc count with
  | nil => exact ⟨[], [], rfl, rfl, small, by simpa using small⟩
  | cons c rest ih =>
    have digit := digit?_of_isDigit (all c (by simp))
    simp only [takeDigits, digit, Nat.ofDigitChars_cons]
    by_cases fits : 10 * acc + (c.toNat - '0'.toNat) < bound
    · obtain ⟨taken, left, split, result, below, exhausted⟩ :=
        @ih _ (count + 1) (fun c hc => all c (by simp [hc])) fits
      refine ⟨c :: taken, left, by rw [split]; rfl, ?_, by rwa [Nat.ofDigitChars_cons], exhausted⟩
      rw [if_pos fits, result, Nat.ofDigitChars_cons, List.length_cons, Nat.add_assoc, Nat.add_comm 1]
    · refine ⟨[], c :: rest, rfl, by rw [if_neg fits]; rfl, small, ?_⟩
      -- more digits only make the number larger
      have grown := @Nat.ofDigitChars_eq_ofDigitChars_zero rest (10 * acc + (c.toNat - '0'.toNat))
      have scale : 0 < 10 ^ rest.length := Nat.pow_pos (by decide)
      have larger := Nat.le_mul_of_pos_left (10 * acc + (c.toNat - '0'.toNat)) scale
      simp only [reduceCtorEq, false_iff, Nat.not_lt]
      omega

theorem countDigits_append (all : ∀ c ∈ digits, c.isDigit = true) (ends : startsWithDigit tail = false) :
    countDigits (digits ++ tail) = digits.length := by
  have none : tail.takeWhile (fun c => (digit? c).isSome) = [] := by
    cases tail with
    | nil => rfl
    | cons c rest => exact List.takeWhile_cons_of_neg (by rw [show (digit? c).isSome = false from ends]; decide)
  rw [countDigits, List.takeWhile_append_of_pos, none, List.append_nil]
  intro c hc
  rw [digit?_of_isDigit (all c hc)]
  rfl

end

/-- Only zero starts with a zero. -/
theorem toDigits_head {n : Nat} (positive : 0 < n) : ∃ c rest, Nat.toDigits 10 n = c :: rest ∧ c ≠ '0' := by
  induction n using Nat.strongRecOn with
  | ind n ih =>
    rw [Nat.toDigits_eq_if (by decide)]
    by_cases small : n < 10
    · rw [if_pos small]
      have digits : ∀ k : Fin 10, 0 < k.val → k.val.digitChar ≠ '0' := by decide
      exact ⟨_, [], rfl, digits ⟨n, small⟩ positive⟩
    · rw [if_neg small]
      obtain ⟨c, rest, digits, first⟩ := ih (n / 10) (by omega) (by omega)
      exact ⟨c, _, by rw [digits]; rfl, first⟩

/-! ## Whole numbers -/

/-- The number that the digits of an integer past 64 bits are read as. -/
def approximate (n : Nat) : Double :=
  let (significand, _, left) := takeDigits (1 <<< 64) 0 0 (Nat.toDigits 10 n)
  (scaled? significand left.length).getD ⟨0⟩

/-- The document that a sign and the digits of an integer are read as. -/
def whole (positive : Bool) (n : Nat) : Json :=
  if n < 2 ^ 64 then integer positive n else signedReal positive (approximate n)

section

variable {positive : Bool} {n offset : Nat} {tail : List Char}

/-- A number without a point or an exponent part ends after its digits. -/
theorem readAfterWhole_of_ends (ends : EndsNumber tail) (significand skipped : Nat) :
    readAfterWhole positive significand skipped ⟨tail, offset⟩
      = if skipped = 0 then .ok (integer positive significand, ⟨tail, offset⟩)
        else finishReal positive significand skipped ⟨tail, offset⟩ := by
  unfold readAfterWhole
  split
  · exact ((ends _ _ ‹_›).2.1 rfl).elim
  · exact ((ends _ _ ‹_›).2.2.1 rfl).elim
  · exact ((ends _ _ ‹_›).2.2.2 rfl).elim
  · rfl

/-- The digits of an integer of 128 bits are read as a number. -/
theorem readNumber_toDigits (small : n < 2 ^ 128) (ends : EndsNumber tail) :
    ∃ stop, readNumber positive ⟨Nat.toDigits 10 n ++ tail, offset⟩ = .ok (whole positive n, ⟨tail, stop⟩) := by
  by_cases zero : n = 0
  · subst zero
    simp only [Nat.toDigits_zero, List.cons_append, List.nil_append, readNumber, ends.startsWithDigit, Bool.false_eq_true,
      if_false, Input.advance, List.drop_succ_cons, List.drop_zero]
    exact ⟨_, readAfterWhole_of_ends ends 0 0⟩
  · have all (c : Char) (hc : c ∈ Nat.toDigits 10 n) : c.isDigit = true :=
      Nat.isDigit_of_mem_toDigits (by decide) (by decide) hc
    obtain ⟨taken, left, split, result, below, exhausted⟩ :=
      @takeDigits_eq (1 <<< 64) 0 0 (Nat.toDigits 10 n) all (by decide)
    obtain ⟨c, rest, digits, first⟩ := toDigits_head (Nat.pos_of_ne_zero zero)
    have found := @takeDigits_append (1 <<< 64) 0 0 (Nat.toDigits 10 n) tail all ends.startsWithDigit
    have digit := digit?_of_isDigit (all c (by rw [digits]; simp))
    have left_digits (c : Char) (hc : c ∈ left) : c.isDigit = true := all c (by rw [split]; simp [hc])
    have skipped := countDigits_append left_digits ends.startsWithDigit
    rw [result] at found
    rw [Nat.ofDigitChars_ten_toDigits, Nat.one_shiftLeft] at exhausted
    have start : readNumber positive ⟨Nat.toDigits 10 n ++ tail, offset⟩
        = readAfterWhole positive (Nat.ofDigitChars 10 taken 0) left.length
          ⟨tail, offset + (0 + taken.length) + left.length⟩ := by
      unfold readNumber
      simp only [found, skipped, List.drop_left]
      rw [digits, List.cons_append]
      split
      · cases ‹_›
      · rename_i same
        cases same
        exact (first rfl).elim
      · rename_i same
        cases same
        rw [digit]
        rfl
    rw [start, readAfterWhole_of_ends ends]
    -- digits past 64 bits are counted only, and there are few of them in 128 bits
    by_cases fits : n < 2 ^ 64
    · obtain rfl := exhausted.mpr fits
      rw [List.append_nil] at split
      subst split
      rw [whole, if_pos fits, Nat.ofDigitChars_ten_toDigits]
      exact ⟨_, rfl⟩
    · have some_left : left.length ≠ 0 := fun none => fits (exhausted.mp (List.length_eq_zero_iff.mp none))
      have few : left.length ≤ 39 := by
        have total : (Nat.toDigits 10 n).length ≤ 39 :=
          (Nat.length_toDigits_le_iff (by decide) (by decide)).mpr (Nat.lt_trans small (by decide))
        rw [split, List.length_append] at total
        omega
      obtain ⟨x, scaled⟩ := Option.isSome_iff_exists.mp (scaled?_isSome below few)
      have value : approximate n = x := by
        simp only [approximate, result, scaled, Option.getD_some]
      rw [if_neg some_left, finishReal, scaled, whole, if_neg fits, value]
      exact ⟨_, rfl⟩

end

end Json

end BitTemplate
