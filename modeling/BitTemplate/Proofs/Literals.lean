import BitTemplate.Program.Listing
import BitTemplate.Proofs.Spans

/-!
Integers as constants of a pattern. An integer is spelled by its magnitude, in decimal or in hexadecimal digits of either
letter case, after a minus sign if it is negative. The magnitude is read before the sign is looked at, and it has to be less
than `2 ^ 127`, so every integer of 128 bits but the lowest one can be written.
-/

namespace BitTemplate.Pattern

/-! ## Spelling -/

/-- A character that shows a digit of a base, in either letter case. -/
structure Shows (base : Nat) (c : Char) (value : Nat) : Prop where
  small : value < base
  shown : c = Hex.lower value ∨ c = Hex.upper value

/-- The digits of a number in a base, the most significant one first; there may be zeros in front. -/
inductive Numeral (base : Nat) : List Char → Nat → Prop
  | digit {c : Char} {value : Nat} (last : Shows base c value) : Numeral base [c] value
  | more {front : List Char} {n : Nat} {c : Char} {value : Nat} (before : Numeral base front n)
      (last : Shows base c value) : Numeral base (front ++ [c]) (base * n + value)

/-- A number in decimal, or in hexadecimal after its mark. -/
inductive Magnitude : List Char → Nat → Prop
  | decimal {text : List Char} {n : Nat} (digits : Numeral 10 text n) : Magnitude text n
  | hexadecimal {text : List Char} {n : Nat} {mark : Char} (marks : mark = 'x' ∨ mark = 'X')
      (digits : Numeral 16 text n) : Magnitude ('0' :: mark :: text) n

/-- The texts of an integer. -/
inductive Spells : List Char → Int → Prop
  | plain {text : List Char} {n : Nat} (magnitude : Magnitude text n) : Spells text n
  | minus {text : List Char} {n : Nat} (magnitude : Magnitude text n) : Spells ('-' :: text) (-n)

/-! ## Digits -/

section

variable {base n value : Nat} {c : Char} {text : List Char}

theorem Shows.of_forall {p : Char → Nat → Prop} (h : Shows base c value)
    (all : ∀ k : Fin base, p (Hex.lower k) k ∧ p (Hex.upper k) k) : p c value := by
  obtain ⟨small, rfl | rfl⟩ := h
  · exact (all ⟨value, small⟩).1
  · exact (all ⟨value, small⟩).2

theorem Shows.decimal (h : Shows 10 c value) : ('0' ≤ c ∧ c ≤ '9') ∧ c.toNat - '0'.toNat = value :=
  h.of_forall (p := fun c value => ('0' ≤ c ∧ c ≤ '9') ∧ c.toNat - '0'.toNat = value) (by decide)

theorem Shows.hexadecimal (h : Shows 16 c value) :
    (('0' ≤ c && c ≤ '9') || ('a' ≤ c && c ≤ 'f') || ('A' ≤ c && c ≤ 'F')) = true ∧ Hex.digit? c = some value :=
  h.of_forall (p := fun c value =>
    (('0' ≤ c && c ≤ '9') || ('a' ≤ c && c ≤ 'f') || ('A' ≤ c && c ≤ 'F')) = true ∧ Hex.digit? c = some value) (by decide)

theorem Numeral.ne_nil (h : Numeral base text n) : text ≠ [] := by
  cases h with
  | digit => exact List.cons_ne_nil _ _
  | more => exact List.append_ne_nil_of_right_ne_nil _ (List.cons_ne_nil _ _)

theorem Numeral.forall_mem (h : Numeral base text n) : ∀ c ∈ text, ∃ value, Shows base c value := by
  induction h with
  | digit last => exact List.forall_mem_singleton.mpr ⟨_, last⟩
  | more _ last ih => exact List.forall_mem_append.mpr ⟨ih, List.forall_mem_singleton.mpr ⟨_, last⟩⟩

theorem decimal_of_numeral (h : Numeral 10 text n) : decimal text = n := by
  induction h with
  | digit last => exact (Nat.zero_add _).trans last.decimal.2
  | more _ last ih => rw [decimal, List.foldl_append, ← decimal, ih, List.foldl_cons, last.decimal.2, List.foldl_nil]

theorem hexadecimal_of_numeral (h : Numeral 16 text n) : hexadecimal text = n := by
  induction h with
  | digit last => simp [hexadecimal, last.hexadecimal.2]
  | more _ last ih =>
    rw [hexadecimal, List.foldl_append, ← hexadecimal, ih, List.foldl_cons, last.hexadecimal.2, Option.getD_some,
      List.foldl_nil]

/-- The digits that a number is written with. -/
theorem numeral_toDigits (large : 1 < base) (small : base ≤ 16) (n : Nat) : Numeral base (Nat.toDigits base n) n := by
  have shown {value : Nat} (below : value < base) : Shows base (Nat.digitChar value) value := by
    have all : ∀ k : Fin 16, Nat.digitChar k = Hex.lower k := by decide
    exact ⟨below, .inl (all ⟨value, Nat.lt_of_lt_of_le below small⟩)⟩
  induction n using Nat.strongRecOn with
  | ind n ih =>
    rw [Nat.toDigits_eq_if large]
    split
    · exact .digit (shown ‹_›)
    · have less : n / base < n := Nat.div_lt_self (by omega) large
      have digits := Numeral.more (ih _ less) (shown (Nat.mod_lt n (Nat.zero_lt_of_lt large)))
      rwa [Nat.div_add_mod] at digits

/-! ## Values -/

theorem unsignedLiteral_of_magnitude (h : Magnitude text n) (negative : Bool) :
    unsignedLiteral negative text = signedLiteral negative n := by
  cases h with
  | decimal digits =>
    have digit (c : Char) (member : c ∈ text) : '0' ≤ c ∧ c ≤ '9' :=
      (digits.forall_mem c member).elim fun _ shown => shown.decimal.1
    have noMark (mark : Char) (rest : List Char) (other : ¬ ('0' ≤ mark ∧ mark ≤ '9')) : text ≠ '0' :: mark :: rest := by
      rintro rfl
      exact other (digit mark (by simp))
    have noPoint (c : Char) (member : c ∈ text) : (c != '.') = true := by
      rw [bne_iff_ne]
      rintro rfl
      exact absurd (digit _ member) (by decide)
    have whole : text.span (· != '.') = (text, []) := by
      rw [List.span_eq_takeWhile_dropWhile, List.takeWhile_eq_self_iff.mpr noPoint, List.dropWhile_eq_nil_iff.mpr noPoint]
    rw [unsignedLiteral]
    · simp only [whole, decimal_of_numeral digits]
    · exact fun rest => noMark 'x' rest (by decide)
    · exact fun rest => noMark 'X' rest (by decide)
  | hexadecimal marks digits =>
    rw [← hexadecimal_of_numeral digits]
    rcases marks with rfl | rfl <;> rfl

theorem Magnitude.ne_minus (h : Magnitude text n) (rest : List Char) : text ≠ '-' :: rest := by
  rintro rfl
  cases h with
  | decimal digits =>
    obtain ⟨value, shown⟩ := digits.forall_mem '-' List.mem_cons_self
    exact absurd shown.decimal.1 (by decide)

/-- The literal of a spelled integer. -/
theorem numberLiteral_of_spells {i : Int} (h : Spells text i) :
    numberLiteral text = if i.natAbs < 2 ^ 127 then .ok (.int (BitVec.ofInt 128 i)) else .error .literalTooLarge := by
  cases h with
  | plain magnitude =>
    rw [numberLiteral, unsignedLiteral_of_magnitude magnitude]
    · rfl
    · exact magnitude.ne_minus
  | minus magnitude =>
    rw [numberLiteral, unsignedLiteral_of_magnitude magnitude, Int.natAbs_neg]
    rfl

end

/-! ## Tokens -/

section

variable {text rest : List Char} {n : Nat} {c : Char}

open Text.Regular

theorem mem_number_of_magnitude (h : Magnitude text n) :
    text ∈ (alt (seq (char '0') (seq (oneOf ['x', 'X']) (plus hexDigit)))
      (seq (plus digit) (option (seq (char '.') (plus digit))))).language := by
  rw [language, Language.mem_add]
  cases h with
  | decimal digits =>
    have whole : text ∈ (plus digit).language := by
      refine mem_language_plus_one.mpr ⟨digits.ne_nil, fun c member => ?_⟩
      obtain ⟨_, shown⟩ := digits.forall_mem c member
      simpa using shown.decimal.1
    exact .inr ⟨text, whole, [], .inl rfl, List.append_nil text⟩
  | @hexadecimal text _ mark marks digits =>
    have whole : text ∈ (plus hexDigit).language := by
      refine mem_language_plus_one.mpr ⟨digits.ne_nil, fun c member => ?_⟩
      obtain ⟨_, shown⟩ := digits.forall_mem c member
      exact shown.hexadecimal.1
    have marked : mark :: text ∈ (seq (oneOf ['x', 'X']) (plus hexDigit)).language :=
      mem_language_seq_one.mpr ⟨mark, text, rfl, by simpa using marks, whole⟩
    exact .inl (mem_language_seq_one.mpr ⟨'0', _, rfl, rfl, marked⟩)

/-- A spelled integer has the form of a number. -/
theorem mem_number_of_spells {i : Int} (h : Spells text i) : text ∈ TokenKind.number.texts.language := by
  cases h with
  | plain magnitude => exact ⟨[], .inl rfl, text, mem_number_of_magnitude magnitude, rfl⟩
  | @minus text _ magnitude => exact ⟨['-'], .inr ⟨'-', rfl, rfl⟩, text, mem_number_of_magnitude magnitude, rfl⟩

/-- The characters that numbers start with. -/
def numberStarts : List Char :=
  ['-', '0', '1', '2', '3', '4', '5', '6', '7', '8', '9']

theorem digit_mem_numberStarts (digit : ('0' ≤ c && c ≤ '9') = true) : c ∈ numberStarts := by
  simp only [Bool.and_eq_true, decide_eq_true_eq] at digit
  have all : ∀ k : Fin 58, 48 ≤ k.val → Char.ofNat k ∈ numberStarts := by decide
  rw [← Char.ofNat_toNat c]
  exact all ⟨c.toNat, Nat.lt_succ_of_le digit.2⟩ digit.1

theorem number_head (belongs : text ∈ TokenKind.number.texts.language) :
    ∃ c rest, text = c :: rest ∧ c ∈ numberStarts := by
  obtain ⟨_, sign, magnitude, number, rfl⟩ := belongs
  rcases sign with rfl | ⟨_, same, rfl⟩
  · rcases number with marked | ⟨digits, front, back, _, rfl⟩
    · obtain ⟨c, rest, rfl, same, _⟩ := mem_language_seq_one.mp marked
      exact ⟨c, rest, rfl, eq_of_beq same ▸ by decide⟩
    · obtain ⟨nonempty, each⟩ := mem_language_plus_one.mp front
      obtain ⟨c, rest, rfl⟩ := List.exists_cons_of_ne_nil nonempty
      exact ⟨c, rest ++ back, rfl, digit_mem_numberStarts (each c List.mem_cons_self)⟩
  · exact ⟨_, magnitude, rfl, eq_of_beq same ▸ by decide⟩

/-- A character of one byte that does not end a constant. -/
structure Plain (c : Char) : Prop where
  noEnd : c ≠ ';'
  ascii : c.utf8Size = 1

theorem Plain.of_range {low high : Char} (inside : (low ≤ c && c ≤ high) = true) (ascii : high.val ≤ 127)
    (outside : ¬ (low ≤ ';' ∧ ';' ≤ high)) : Plain c := by
  refine ⟨?_, ascii_of_range inside ascii⟩
  rintro rfl
  exact outside (by simpa using inside)

theorem Plain.of_digit (c : Char) (passes : ('0' ≤ c && c ≤ '9') = true) : Plain c :=
  .of_range passes (by decide) (by decide)

theorem Plain.of_hexDigit (c : Char)
    (passes : (('0' ≤ c && c ≤ '9') || ('a' ≤ c && c ≤ 'f') || ('A' ≤ c && c ≤ 'F')) = true) : Plain c := by
  simp only [Bool.or_eq_true] at passes
  rcases passes with (passes | passes) | passes
  · exact .of_digit c passes
  · exact .of_range passes (by decide) (by decide)
  · exact .of_range passes (by decide) (by decide)

theorem Plain.of_beq {d : Char} (plain : Plain d) (c : Char) (passes : (c == d) = true) : Plain c :=
  eq_of_beq passes ▸ plain

theorem number_uses : TokenKind.number.texts.Uses Plain := by
  have mark (c : Char) (passes : ['x', 'X'].contains c = true) : Plain c := by
    have either : c = 'x' ∨ c = 'X' := by simpa using passes
    rcases either with rfl | rfl
    · exact ⟨by decide, rfl⟩
    · exact ⟨by decide, rfl⟩
  have minus := Plain.of_beq (d := '-') ⟨by decide, rfl⟩
  have zero := Plain.of_beq (d := '0') ⟨by decide, rfl⟩
  have point := Plain.of_beq (d := '.') ⟨by decide, rfl⟩
  exact ⟨⟨trivial, minus⟩, ⟨zero, mark, .of_hexDigit, .of_hexDigit⟩, ⟨.of_digit, .of_digit⟩, trivial, point, .of_digit,
    .of_digit⟩

theorem utf8Length_number (belongs : text ∈ TokenKind.number.texts.language) : Text.utf8Length text = text.length :=
  utf8Length_of_ascii fun c member => (number_uses.forall_mem belongs c member).ascii

/-- Only one kind has texts that start with some characters. -/
theorem kind_of_prefix {kind other : TokenKind} {read tail : List Char}
    (isVoid : ∀ other ∈ TokenKind.all, other ≠ kind → (other.texts.afterAll read).isVoid = true)
    (belongs : read ++ tail ∈ (TokenKind.texts other).language) : other = kind := by
  by_contra different
  exact notMem_of_isVoid_afterAll (isVoid other (TokenKind.mem_all belongs) different) belongs

theorem kind_of_accepts {kind other : TokenKind}
    (only : ∀ other ∈ TokenKind.all, other.texts.accepts text = true → other = kind)
    (belongs : text ∈ (TokenKind.texts other).language) : other = kind :=
  only other (TokenKind.mem_all belongs) (accepts_iff.mpr belongs)

theorem kind_of_number_start {other : TokenKind} (start : c ∈ numberStarts)
    (belongs : c :: rest ∈ (TokenKind.texts other).language) : other = .number := by
  -- the characters are named by their index, so that there are eleven cases to decide and not one per character
  have all : ∀ i : Fin numberStarts.length, ∀ other ∈ TokenKind.all, other ≠ .number →
      (other.texts.afterAll [numberStarts.get i]).isVoid = true := by
    decide
  obtain ⟨i, rfl⟩ := List.mem_iff_get.mp start
  exact kind_of_prefix (all i) belongs

/-- No token but a single equals sign starts with one before a number. -/
theorem equals_longest (start : c ∈ numberStarts) : TokenKind.equals.Longest ['='] (c :: rest) where
  belongs := accepts_iff.mp (by decide)
  longest other longer isPrefix long belongs := by
    have all : ∀ i : Fin numberStarts.length, ∀ other ∈ TokenKind.all,
        (other.texts.afterAll ['=', numberStarts.get i]).isVoid = true := by
      decide
    obtain ⟨tail, rfl⟩ : ['=', c] <+: longer :=
      List.prefix_of_prefix_length_le (List.prefix_append ['=', c] rest) isPrefix long
    obtain ⟨i, rfl⟩ := List.mem_iff_get.mp start
    exact notMem_of_isVoid_afterAll (all i other (TokenKind.mem_all belongs)) belongs

theorem number_longest (belongs : text ∈ TokenKind.number.texts.language) : TokenKind.number.Longest text [';'] where
  belongs := belongs
  longest other longer isPrefix long member := by
    -- what is longer takes the semicolon too, but starts as a number does
    obtain rfl : longer = text ++ [';'] := isPrefix.eq_of_length_le (by simpa using long)
    obtain ⟨c, rest, rfl, start⟩ := number_head belongs
    obtain rfl := kind_of_number_start start member
    exact (number_uses.forall_mem member ';' (by simp)).noEnd rfl

theorem semicolon_longest : TokenKind.semicolon.Longest [';'] [] where
  belongs := accepts_iff.mp (by decide)
  longest _ _ isPrefix long _ := absurd isPrefix.length_le (Nat.not_le_of_lt long)

/-- The pattern that asserts a constant. -/
def assertionSource (text : List Char) : List Char :=
  '=' :: (text ++ [';'])

theorem tokens_assertionSource (belongs : text ∈ TokenKind.number.texts.language) :
    tokens (assertionSource text)
      = [⟨.equals, ⟨0, 1⟩⟩, ⟨.number, ⟨1, 1 + text.length⟩⟩, ⟨.semicolon, ⟨1 + text.length, 1 + text.length + 1⟩⟩] := by
  have bytes := utf8Length_number belongs
  obtain ⟨c, rest, rfl, start⟩ := number_head belongs
  have nonblank : isSeparator c = false := by
    have all : ∀ i : Fin numberStarts.length, isSeparator (numberStarts.get i) = false := by decide
    obtain ⟨i, rfl⟩ := List.mem_iff_get.mp start
    exact all i
  have first : tokensFrom 0 (['='] ++ (c :: rest ++ [';']))
      = ⟨.equals, ⟨0, 1⟩⟩ :: tokensFrom 1 (c :: rest ++ [';']) :=
    tokensFrom_of_longest ⟨'=', [], rfl, rfl⟩ (equals_longest start) fun _ => kind_of_accepts (by decide)
  have second : tokensFrom 1 (c :: rest ++ [';'])
      = ⟨.number, ⟨1, 1 + Text.utf8Length (c :: rest)⟩⟩ :: tokensFrom (1 + Text.utf8Length (c :: rest)) [';'] :=
    tokensFrom_of_longest ⟨c, rest, rfl, nonblank⟩ (number_longest belongs) fun _ => kind_of_number_start start
  have third (offset : Nat) : tokensFrom offset [';'] = [⟨.semicolon, ⟨offset, offset + 1⟩⟩] := by
    have read : tokensFrom offset ([';'] ++ []) = ⟨.semicolon, ⟨offset, offset + 1⟩⟩ :: tokensFrom (offset + 1) [] :=
      tokensFrom_of_longest ⟨';', [], rfl, rfl⟩ semicolon_longest fun _ => kind_of_accepts (by decide)
    rwa [List.append_nil, tokensFrom.eq_1] at read
  rw [bytes] at second
  rw [tokens, assertionSource, ← List.singleton_append, first, second, third]
  rfl

end

/-! ## Programs -/

section

variable {text : List Char} {i : Int}

theorem readStatement_assertionSource (belongs : text ∈ TokenKind.number.texts.language) :
    readStatement (assertionSource text) ⟨.equals, ⟨0, 1⟩⟩
        [⟨.number, ⟨1, 1 + text.length⟩⟩, ⟨.semicolon, ⟨1 + text.length, 1 + text.length + 1⟩⟩] =
      match numberLiteral text with
      | .ok literal => .ok (.directive (.control (.assertion literal)), ⟨0, 1 + text.length + 1⟩, [])
      | .error cause => .error ⟨cause, ⟨1, 1 + text.length⟩, String.ofList text⟩ := by
  have cuts : Span.Cuts ⟨1, 1 + text.length⟩ (assertionSource text) ['='] text [';'] :=
    ⟨rfl, rfl, utf8Length_number belongs ▸ rfl⟩
  -- the error names the text that the span of the number covers
  rw [readStatement_assertion rfl, readLiteral_cons, constantAt, Token.text, cuts.of_eq]
  cases numberLiteral text with
  | error cause => simp [Except.mapError, errorAt, cuts.of_eq, bind, Except.bind]
  | ok literal => rfl

/-- An assertion of a number compiles if the number has a literal. -/
theorem compile_assertionSource (belongs : text ∈ TokenKind.number.texts.language) :
    compile (String.ofList (assertionSource text)) =
      match numberLiteral text with
      | .ok literal =>
        .ok ⟨[⟨String.ofList (assertionSource text), ⟨0, 1 + text.length + 1⟩, .control (.assertion literal)⟩]⟩
      | .error cause => .error ⟨cause, ⟨1, 1 + text.length⟩, String.ofList text⟩ := by
  have size : 1 + text.length + 1 = 0 + Text.utf8Length (assertionSource text) := by
    rw [assertionSource, Text.utf8Length_cons, Text.utf8Length_append, utf8Length_number belongs, Nat.zero_add,
      Nat.add_assoc]
    rfl
  have cuts : Span.Cuts ⟨0, 1 + text.length + 1⟩ (assertionSource text) [] (assertionSource text) [] :=
    ⟨(List.append_nil _).symm, rfl, size⟩
  rw [compile, String.toList_ofList, tokens_assertionSource belongs]
  simp only [List.length_cons, List.length_nil, addTokens, readStatement_assertionSource belongs]
  cases numberLiteral text with
  | error cause => rfl
  | ok literal =>
    simp only [addStatement, Layers.add, bind, Except.bind, cuts.of_eq]
    rfl

/-- A spelled integer compiles to an assertion of it, if its magnitude fits. -/
theorem compile_of_spells (h : Spells text i) :
    compile (String.ofList (assertionSource text)) =
      if i.natAbs < 2 ^ 127 then
        .ok ⟨[⟨String.ofList (assertionSource text), ⟨0, 1 + text.length + 1⟩,
          .control (.assertion (.int (BitVec.ofInt 128 i)))⟩]⟩
      else .error ⟨.literalTooLarge, ⟨1, 1 + text.length⟩, String.ofList text⟩ := by
  rw [compile_assertionSource (mem_number_of_spells h), numberLiteral_of_spells h]
  by_cases fits : i.natAbs < 2 ^ 127
  · rw [if_pos fits, if_pos fits]
  · rw [if_neg fits, if_neg fits]

end

/-! ## Every integer -/

section

variable {text : List Char} {i : Int}

/-- The sign in front of an integer. -/
def sign (i : Int) : List Char :=
  if 0 ≤ i then [] else ['-']

theorem Spells.of_magnitude (h : Magnitude text i.natAbs) : Spells (sign i ++ text) i := by
  rw [sign]
  split
  · have spelled := Spells.plain h
    rwa [Int.natAbs_of_nonneg ‹0 ≤ i›] at spelled
  · have negative : i ≤ 0 := by omega
    have spelled := Spells.minus h
    rwa [Int.ofNat_natAbs_of_nonpos negative, neg_neg] at spelled

/-- The text of an integer is its decimal spelling. -/
theorem toList_text_int (n : BitVec 128) :
    (Literal.int n).text.toList = sign n.toInt ++ Nat.toDigits 10 n.toInt.natAbs := by
  rw [Literal.text, Int.toString_eq_repr, Int.repr_eq_if, sign]
  split
  · have same : n.toInt.toNat = n.toInt.natAbs := by omega
    rw [Nat.toList_repr, same, List.nil_append]
  · have same : (-n.toInt).toNat = n.toInt.natAbs := by omega
    rw [String.toList_append, Nat.toList_repr, same]
    rfl

theorem natAbs_toInt_lt (n : BitVec 128) : n.toInt.natAbs < 2 ^ 127 ↔ n ≠ BitVec.intMin 128 := by
  have above := n.le_toInt
  have below := n.toInt_lt
  have lowest : (BitVec.intMin 128).toInt = -2 ^ 127 := by decide
  rw [ne_eq, ← BitVec.toInt_inj, lowest]
  omega

/-- The lowest integer in decimal. -/
def lowestText : String := "-170141183460469231731687303715884105728"

theorem spells_lowestText : Spells lowestText.toList (BitVec.intMin 128).toInt := by
  have text : (Literal.int (BitVec.intMin 128)).text = lowestText := by decide +kernel
  have decimal : Numeral 10 _ (BitVec.intMin 128).toInt.natAbs := numeral_toDigits (by decide) (by decide) _
  rw [← text, toList_text_int]
  exact .of_magnitude (.decimal decimal)

theorem source_lowestText :
    String.ofList (assertionSource lowestText.toList) = "=-170141183460469231731687303715884105728;" := by
  rfl

theorem length_lowestText : lowestText.toList.length = 40 := by
  rfl

/-- Every integer of 128 bits but the lowest one is the constant of an assertion, however it is spelled; the lowest one
has no spelling that compiles. -/
theorem integer_literals (n : BitVec 128) :
    Spells (Literal.int n).text.toList n.toInt
      ∧ Spells (sign n.toInt ++ '0' :: 'x' :: Nat.toDigits 16 n.toInt.natAbs) n.toInt
      ∧ ∀ text, Spells text n.toInt →
        (n ≠ BitVec.intMin 128 → compile (String.ofList (assertionSource text)) =
            .ok ⟨[⟨String.ofList (assertionSource text), ⟨0, text.length + 2⟩, .control (.assertion (.int n))⟩]⟩)
          ∧ (n = BitVec.intMin 128 → compile (String.ofList (assertionSource text)) =
            .error ⟨.literalTooLarge, ⟨1, text.length + 1⟩, String.ofList text⟩) := by
  have decimal : Numeral 10 _ n.toInt.natAbs := numeral_toDigits (by decide) (by decide) _
  have hexadecimal : Numeral 16 _ n.toInt.natAbs := numeral_toDigits (by decide) (by decide) _
  refine ⟨toList_text_int n ▸ .of_magnitude (.decimal decimal), .of_magnitude (.hexadecimal (.inl rfl) hexadecimal),
    fun text spelled => ?_⟩
  have stop : 1 + text.length + 1 = text.length + 2 := by omega
  rw [compile_of_spells spelled, BitVec.ofInt_toInt, stop, Nat.add_comm 1]
  constructor
  · intro higher
    rw [if_pos ((natAbs_toInt_lt n).mpr higher)]
  · intro lowest
    rw [if_neg (mt (natAbs_toInt_lt n).mp (not_not_intro lowest))]

/-- An integer in hexadecimal digits of both cases, and the lowest one. -/
theorem integer_literals_negative :
    Spells "-0x1fF".toList (-511 : BitVec 128).toInt ∧ (-511 : BitVec 128) ≠ BitVec.intMin 128
      ∧ compile "=-0x1fF;" = .ok ⟨[⟨"=-0x1fF;", ⟨0, 8⟩, .control (.assertion (.int (-511)))⟩]⟩
      ∧ Spells lowestText.toList (BitVec.intMin 128).toInt
      ∧ compile "=-170141183460469231731687303715884105728;" = .error ⟨.literalTooLarge, ⟨1, 41⟩, lowestText⟩ := by
  have front : Numeral 16 ['1', 'f'] 31 :=
    @Numeral.more 16 ['1'] 1 'f' 15 (.digit ⟨by decide, .inl (by decide)⟩) ⟨by decide, .inl (by decide)⟩
  have digits : Numeral 16 ['1', 'f', 'F'] 511 :=
    @Numeral.more 16 ['1', 'f'] 31 'F' 15 front ⟨by decide, .inr (by decide)⟩
  have spelled : Spells "-0x1fF".toList (-511 : BitVec 128).toInt := .minus (.hexadecimal (.inl rfl) digits)
  have other : (-511 : BitVec 128) ≠ BitVec.intMin 128 := by decide
  have higher := ((integer_literals (-511)).2.2 _ spelled).1 other
  have lowest := ((integer_literals (BitVec.intMin 128)).2.2 _ spells_lowestText).2 rfl
  rw [source_lowestText, length_lowestText, String.ofList_toList] at lowest
  exact ⟨spelled, other, higher, spells_lowestText, lowest⟩

/-- The text of the lowest integer does not compile as a constant. -/
theorem lowest_literal_rejected :
    Spells lowestText.toList (BitVec.intMin 128).toInt
      ∧ compile "=-170141183460469231731687303715884105728;" = .error ⟨.literalTooLarge, ⟨1, 41⟩, lowestText⟩ := by
  have rejected := compile_of_spells spells_lowestText
  rw [source_lowestText, length_lowestText, String.ofList_toList, if_neg (by decide)] at rejected
  exact ⟨spells_lowestText, rejected⟩

end

end BitTemplate.Pattern
