import BitTemplate.Proofs.Agreement
import BitTemplate.Proofs.Steps

/-!
Comparisons. A label match has the last value on its left and an assertion has it on its right, so they ask the same
question because the comparison is symmetric, through all kinds of values and through nested lists. Integers compare by
number, also where one of them has a sign and the other one lies past the signed range. Main statement: a label that is
defined with a constant matches exactly where the constant is asserted, in a decoder and in an encoder.
-/

namespace BitTemplate

namespace Value

/-! ## Integers -/

theorem unsigned?_eq_some {v : Value} {n : Nat} : v.unsigned? = some n ↔ v.integer? = some (n : Int) := by
  cases v with
  | uint m =>
    simp only [unsigned?, integer?, Option.some.injEq]
    omega
  | sint m =>
    simp only [unsigned?, integer?, Option.some.injEq]
    split
    · rw [Option.some.injEq]
      omega
    · constructor
      · intro h
        cases h
      · intro h
        omega
  | _ => simp [unsigned?, integer?]

theorem signed?_eq_some {v : Value} {n : Int} : v.signed? = some n ↔ v.integer? = some n ∧ n < 2 ^ 127 := by
  cases v with
  | uint m =>
    simp only [signed?, integer?, Option.some.injEq, Nat.one_shiftLeft]
    split
    · rw [Option.some.injEq]
      omega
    · constructor
      · intro h
        cases h
      · intro h
        omega
  | sint m =>
    have high := BitVec.toInt_lt (x := m)
    simp only [signed?, integer?, Option.some.injEq]
    omega
  | _ => simp [signed?, integer?]

/-- Where a number is too large for a sign, an integer is the same only as it stands, and an integer with a sign is another
number. -/
theorem sameInteger_of_large {a b : Value} {m n : Int} (left : a.integer? = some m) (right : b.integer? = some n)
    (large : ¬(m < 2 ^ 127 ∧ n < 2 ^ 127)) : a.sameInteger b = (m == n) := by
  rw [Bool.eq_iff_iff, beq_iff_eq]
  unfold sameInteger
  split
  · rename_i i j signed signed'
    have first := signed?_eq_some.mp signed
    have second := signed?_eq_some.mp signed'
    cases left.symm.trans first.1
    cases right.symm.trans second.1
    exact absurd ⟨first.2, second.2⟩ large
  · cases a with
    | uint k =>
      cases left
      cases b with
      | uint l =>
        cases right
        change (k == l) = true ↔ _
        rw [beq_iff_eq, ← BitVec.toNat_inj, Int.natCast_inj]
      | sint l =>
        cases right
        have low := BitVec.toInt_lt (x := l)
        simp only [Bool.false_eq_true, false_iff]
        omega
      | _ => cases right
    | sint k =>
      cases left
      have low := BitVec.toInt_lt (x := k)
      cases b with
      | uint l =>
        cases right
        simp only [Bool.false_eq_true, false_iff]
        omega
      | sint l =>
        cases right
        have low' := BitVec.toInt_lt (x := l)
        exact absurd ⟨low, low'⟩ large
      | _ => cases right
    | _ => cases left

theorem sameInteger_eq {a b : Value} {m n : Int} (left : a.integer? = some m) (right : b.integer? = some n) :
    a.sameInteger b = (m == n) := by
  by_cases small : m < 2 ^ 127 ∧ n < 2 ^ 127
  · unfold sameInteger
    rw [signed?_eq_some.mpr ⟨left, small.1⟩, signed?_eq_some.mpr ⟨right, small.2⟩]
  · exact sameInteger_of_large left right small

/-! ## Symmetry -/

theorem sameLetters_comm (a b : String) : sameLetters a b = sameLetters b a :=
  BEq.comm

theorem sameInteger_comm {a b : Value} {m n : Int} (left : a.integer? = some m) (right : b.integer? = some n) :
    a.sameInteger b = b.sameInteger a := by
  rw [sameInteger_eq left right, sameInteger_eq right left, BEq.comm]

theorem sameScalar_comm (a b : Value) : a.sameScalar b = b.sameScalar a := by
  cases a with
  | uint m =>
    cases b with
    | uint n => exact sameInteger_comm (a := .uint m) (b := .uint n) rfl rfl
    | sint n => exact sameInteger_comm (a := .uint m) (b := .sint n) rfl rfl
    | _ => rfl
  | sint m =>
    cases b with
    | uint n => exact sameInteger_comm (a := .sint m) (b := .uint n) rfl rfl
    | sint n => exact sameInteger_comm (a := .sint m) (b := .sint n) rfl rfl
    | _ => rfl
  | float x =>
    cases b with
    | float y => exact x.equals_comm y
    | _ => rfl
  | hex a =>
    cases b with
    | hex b => exact sameLetters_comm a b
    | text b => exact sameLetters_comm a b
    | _ => rfl
  | bin a =>
    cases b with
    | bin b => exact @BEq.comm String _ _ a b
    | text b => exact @BEq.comm String _ _ a b
    | _ => rfl
  | bytes a =>
    cases b with
    | bytes b => exact @BEq.comm (List UInt8) _ _ a b
    | _ => rfl
  | text a =>
    cases b with
    | hex b => exact sameLetters_comm a b
    | bin b => exact @BEq.comm String _ _ a b
    | text b => exact @BEq.comm String _ _ a b
    | _ => rfl
  | list items => cases b <;> rfl

theorem same_of_left {a : Value} (single : a.isList = false) (b : Value) : a.same b = a.sameScalar b := by
  cases a with
  | list items => cases single
  | _ => cases b <;> rfl

theorem same_of_right (a : Value) {b : Value} (single : b.isList = false) : a.same b = a.sameScalar b := by
  cases b with
  | list items => cases single
  | _ => cases a <;> rfl

theorem same_comm_of_single {a : Value} (single : a.isList = false) (b : Value) : a.same b = b.same a := by
  rw [same_of_left single, same_of_right b single, sameScalar_comm]

mutual

/-- The order of two values does not matter to their comparison. -/
theorem same_comm (a b : Value) : a.same b = b.same a := by
  cases a with
  | list as =>
    cases b with
    | list bs => exact sameItems_comm as bs
    | _ => exact (same_comm_of_single rfl _).symm
  | _ => exact same_comm_of_single rfl b

theorem sameItems_comm (as bs : List Value) : sameItems as bs = sameItems bs as := by
  cases as with
  | nil => cases bs <;> rfl
  | cons a as =>
    cases bs with
    | nil => rfl
    | cons b bs => rw [sameItems, sameItems, same_comm a b, sameItems_comm as bs]

end

/-! ## Numbers -/

theorem sameScalar_integer {a b : Value} {m n : Int} (left : a.integer? = some m) (right : b.integer? = some n) :
    a.sameScalar b = (m == n) := by
  have compared : a.sameScalar b = a.sameInteger b := by
    cases a with
    | uint k =>
      cases b with
      | uint l => rfl
      | sint l => rfl
      | _ => cases right
    | sint k =>
      cases b with
      | uint l => rfl
      | sint l => rfl
      | _ => cases right
    | _ => cases left
  rw [compared, sameInteger_eq left right]

theorem isList_of_integer {a : Value} {m : Int} (number : a.integer? = some m) : a.isList = false := by
  cases a with
  | list items => cases number
  | _ => rfl

/-- Integers of either kind are the same exactly if they are the same number. -/
theorem same_integer_iff {a b : Value} {m n : Int} (left : a.integer? = some m) (right : b.integer? = some n) :
    a.same b = true ↔ m = n := by
  rw [same_of_left (isList_of_integer left), sameScalar_integer left right, beq_iff_eq]

end Value

/-! ## Labels -/

/-- What was added last is what a label stands for. -/
theorem Labels.newest?_add (labels : Labels) (name : String) (entry : LabelEntry) :
    (labels.add name entry).newest? name = some entry := by
  induction labels with
  | nil => simp [add, newest?]
  | cons first rest ih =>
    obtain ⟨other, entries⟩ := first
    by_cases found : other = name
    · simp [add, newest?, found]
    · have apart : (name == other) = false := by
        rw [beq_eq_false_iff_ne]
        exact Ne.symm found
      rw [newest?, add, if_neg found, List.lookup_cons, apart]
      exact ih

theorem Literal.matches_comm (literal : Literal) (value : Value) :
    literal.matches value = value.same literal.toValue := by
  rw [Literal.matches, Value.same_comm]

namespace Engine

/-- A label that is defined with a constant matches exactly where the constant is asserted. -/
theorem matchLabel_defLabel (e : Engine) (name : String) (literal : Literal) :
    (e.defLabel name (some literal)).matchLabel name = .ok () ↔ e.assertLast literal = .ok () := by
  have newest : (e.defLabel name (some literal)).labels.newest? name
      = some ⟨e.streamPosition, e.walk.path, some literal.toValue⟩ := Labels.newest?_add _ _ _
  rw [matchLabel_ok, assertLast_ok]
  constructor
  · intro matched
    obtain ⟨entry, expected, last, found, value, produced, same⟩ := matched
    cases newest.symm.trans found
    cases value
    exact ⟨last, produced, by rwa [Literal.matches_comm]⟩
  · intro asserted
    obtain ⟨last, produced, same⟩ := asserted
    exact ⟨_, _, last, newest, rfl, produced, by rwa [← Literal.matches_comm]⟩

/-- A comparison that comes out true leaves the engine as it was. -/
theorem control_compares_ok {e e' : Engine} {action : Control} (compares : action.compares = true) :
    e.control action = .ok e' ↔ e.Passes action ∧ e = e' := by
  have kept {x : Except Fault Unit} : (do x; return e : Except Fault Engine) = .ok e' ↔ x = .ok () ∧ e = e' := by
    simp only [except_bind_ok, except_pure_ok, exists_and_right]
    constructor
    · intro done
      obtain ⟨⟨_, passed⟩, same⟩ := done
      exact ⟨passed, same⟩
    · intro done
      exact ⟨⟨(), done.1⟩, done.2⟩
  cases action with
  | matchLabel name => exact kept
  | assertion expected => exact kept
  | _ => cases compares

/-- Defining a label with a constant and matching it succeeds where asserting the constant does. -/
theorem control_defLabel_matchLabel (e : Engine) (name : String) (literal : Literal) :
    (∃ defined e', e.control (.defLabel name (some literal)) = .ok defined ∧ defined.control (.matchLabel name) = .ok e')
      ↔ ∃ e', e.control (.assertion literal) = .ok e' := by
  constructor
  · intro matched
    obtain ⟨defined, e', define, matched⟩ := matched
    cases define
    exact ⟨e, (control_compares_ok rfl).mpr ⟨(matchLabel_defLabel ..).mp ((control_compares_ok rfl).mp matched).1, rfl⟩⟩
  · intro asserted
    obtain ⟨e', asserted⟩ := asserted
    have passed := (matchLabel_defLabel e name literal).mpr ((control_compares_ok rfl).mp asserted).1
    exact ⟨_, _, rfl, (control_compares_ok rfl).mpr ⟨passed, rfl⟩⟩

end Engine

theorem Decoder.execute_defLabel_matchLabel (e : Engine) (name : String) (literal : Literal) :
    (∃ e', (do execute (.control (.defLabel name (some literal))); execute (.control (.matchLabel name))) e = .ok () e')
      ↔ ∃ e', execute (.control (.assertion literal)) e = .ok () e' := by
  simp only [step_bind_ok, execute_control_ok]
  rw [← Engine.control_defLabel_matchLabel e name literal]
  constructor
  · intro done
    obtain ⟨e', _, defined, define, matched⟩ := done
    exact ⟨defined, e', define, matched⟩
  · intro done
    obtain ⟨defined, e', define, matched⟩ := done
    exact ⟨e', (), defined, define, matched⟩

theorem Encoder.execute_defLabel_matchLabel (s : Encoder) (name : String) (literal : Literal) :
    (∃ s', (do execute (.control (.defLabel name (some literal))); execute (.control (.matchLabel name))) s = .ok () s')
      ↔ ∃ s', execute (.control (.assertion literal)) s = .ok () s' := by
  simp only [step_bind_ok, execute_control_ok]
  constructor
  · intro done
    obtain ⟨_, _, _, ⟨defined, define, rfl⟩, e', matched, rfl⟩ := done
    obtain ⟨e', asserted⟩ := (Engine.control_defLabel_matchLabel ..).mp ⟨defined, e', define, matched⟩
    exact ⟨_, e', asserted, rfl⟩
  · intro done
    obtain ⟨_, e', asserted, rfl⟩ := done
    obtain ⟨defined, e', define, matched⟩ := (Engine.control_defLabel_matchLabel _ name _).mpr ⟨e', asserted⟩
    exact ⟨_, (), _, ⟨defined, define, rfl⟩, e', matched, rfl⟩

/-- An assertion and a label match ask the same question. The comparison is symmetric, integers of either kind are the same
exactly if they are the same number, and to define a label with a constant and match it succeeds exactly where to assert
the constant does, at any moment of a decoder or an encoder. -/
theorem comparisons_agree :
    (∀ a b : Value, a.same b = b.same a)
      ∧ (∀ m n : BitVec 128,
        ((Value.uint m).same (.uint n) = true ↔ (m.toNat : Int) = n.toNat)
        ∧ ((Value.uint m).same (.sint n) = true ↔ (m.toNat : Int) = n.toInt)
        ∧ ((Value.sint m).same (.uint n) = true ↔ m.toInt = n.toNat)
        ∧ ((Value.sint m).same (.sint n) = true ↔ m.toInt = n.toInt))
      ∧ (∀ (e : Engine) (name : String) (literal : Literal),
        (∃ e', (do Decoder.execute (.control (.defLabel name (some literal)))
                   Decoder.execute (.control (.matchLabel name))) e = .ok () e')
          ↔ ∃ e', Decoder.execute (.control (.assertion literal)) e = .ok () e')
      ∧ ∀ (s : Encoder) (name : String) (literal : Literal),
        (∃ s', (do Encoder.execute (.control (.defLabel name (some literal)))
                   Encoder.execute (.control (.matchLabel name))) s = .ok () s')
          ↔ ∃ s', Encoder.execute (.control (.assertion literal)) s = .ok () s' :=
  ⟨Value.same_comm,
    fun _ _ => ⟨Value.same_integer_iff rfl rfl, Value.same_integer_iff rfl rfl, Value.same_integer_iff rfl rfl,
      Value.same_integer_iff rfl rfl⟩,
    Decoder.execute_defLabel_matchLabel, Encoder.execute_defLabel_matchLabel⟩

end BitTemplate
