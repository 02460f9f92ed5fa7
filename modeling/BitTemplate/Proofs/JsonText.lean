import Mathlib
import BitTemplate.Proofs.JsonNumber
import BitTemplate.Shape
import BitTemplate.Value.Json
import BitTemplate.Value.Printer

/-!
Printed values read back. The reader takes the printed form of a value without floating-point numbers, on one line or on
several, as a document of the same nesting: integers as numbers, digits, bytes and texts as strings. So a printed list
reads back as the list of what its values read back as.
-/

namespace BitTemplate

namespace Json

/-! ## Blanks -/

/-- Blanks are skipped up to the first character that is none. -/
theorem skip_append {blanks rest : List Char} {offset : Nat} (all : ∀ c ∈ blanks, isSpace c = true)
    (ends : ∀ c more, rest = c :: more → isSpace c = false) :
    Input.skip ⟨blanks ++ rest, offset⟩ = ⟨rest, offset + blanks.length⟩ := by
  have none : rest.takeWhile isSpace = [] := by
    cases rest with
    | nil => rfl
    | cons c more => exact List.takeWhile_cons_of_neg (by rw [ends c more rfl]; decide)
  rw [Input.skip, List.takeWhile_append_of_pos all, none, List.append_nil, Input.advance, List.drop_left]

theorem skip_cons {c : Char} {rest : List Char} {offset : Nat} (h : isSpace c = false) :
    Input.skip ⟨c :: rest, offset⟩ = ⟨c :: rest, offset⟩ := by
  refine @skip_append [] (c :: rest) offset (by simp) fun _ _ same => ?_
  cases same
  exact h

/-! ## Strings -/

/-- The four digits of a control read as its code. -/
theorem readFour_control {code : Nat} (small : code < 160) (rest : List Char) (offset : Nat) :
    readFour ⟨List.replicate (4 - (Nat.toDigits 16 code).length) '0' ++ Nat.toDigits 16 code ++ rest, offset⟩
      = .ok (code, ⟨rest, offset + 4⟩) := by
  have codes : ∀ k : Fin 160,
      (List.replicate (4 - (Nat.toDigits 16 k.val).length) '0' ++ Nat.toDigits 16 k.val).length = 4
      ∧ (List.replicate (4 - (Nat.toDigits 16 k.val).length) '0' ++ Nat.toDigits 16 k.val).mapM Hex.digit?
        = some [0, 0, k.val / 16, k.val % 16] := by
    decide +kernel
  obtain ⟨four, values⟩ := codes ⟨code, small⟩
  simp only at four values
  generalize List.replicate (4 - (Nat.toDigits 16 code).length) '0' ++ Nat.toDigits 16 code = digits at four values ⊢
  have taken : (digits ++ rest).take 4 = digits := List.take_left' four
  have left : (digits ++ rest).drop 4 = rest := List.drop_left' four
  simp only [readFour, taken, values, Input.advance, left]
  congr 2
  omega

/-- The code of a control is read as the control. -/
theorem readCode_control {c : Char} (control : Value.isControl c = true) (rest : List Char) (offset : Nat) :
    readCode ⟨List.replicate (4 - (Nat.toDigits 16 c.toNat).length) '0' ++ Nat.toDigits 16 c.toNat ++ rest, offset⟩
      = .ok (c, ⟨rest, offset + 4⟩) := by
  have small := Value.toNat_lt_of_isControl control
  have first : ¬ (0xdc00 ≤ c.toNat ∧ c.toNat ≤ 0xdfff) := by omega
  have second : ¬ (0xd800 ≤ c.toNat ∧ c.toNat ≤ 0xdbff) := by omega
  simp only [readCode, readFour_control small, bind, Except.bind, if_neg first, if_neg second, Char.ofNat_toNat]
  rfl

theorem readString_backslash (rest : List Char) (fuel offset : Nat) :
    readString (fuel + 1) ⟨'\\' :: rest, offset⟩ = (do
      let (char, input) ← readEscape ⟨rest, offset + 1⟩
      let (chars, input) ← readString fuel input
      return (char :: chars, input)) :=
  rfl

theorem readEscape_code (rest : List Char) (offset : Nat) :
    readEscape ⟨'u' :: rest, offset⟩ = readCode ⟨rest, offset + 1⟩ :=
  rfl

/-- What is printed for a character of a string is read as the character. -/
theorem readString_escapeShown (c : Char) (rest : List Char) (fuel offset : Nat) :
    ∃ stop, readString (fuel + 1) ⟨(Value.escapeShown c).toList ++ rest, offset⟩ = (do
      let (chars, input) ← readString fuel ⟨rest, stop⟩
      return (c :: chars, input)) := by
  unfold Value.escapeShown
  by_cases quote : c = '"'
  · subst quote
    exact ⟨_, rfl⟩
  by_cases backslash : c = '\\'
  · subst backslash
    exact ⟨_, rfl⟩
  by_cases line : c = '\n'
  · subst line
    exact ⟨_, rfl⟩
  by_cases carriage : c = '\r'
  · subst carriage
    exact ⟨_, rfl⟩
  by_cases tab : c = '\t'
  · subst tab
    exact ⟨_, rfl⟩
  rw [if_neg quote, if_neg backslash, if_neg line, if_neg carriage, if_neg tab]
  by_cases control : Value.isControl c = true
  · rw [if_pos control]
    refine ⟨offset + 1 + 1 + 4, ?_⟩
    have text : (Value.unicodeEscape c).toList ++ rest
        = '\\' :: 'u' :: (List.replicate (4 - (Nat.toDigits 16 c.toNat).length) '0' ++ Nat.toDigits 16 c.toNat ++ rest) := by
      simp [Value.unicodeEscape]
    rw [text, readString_backslash, readEscape_code, readCode_control control]
    rfl
  · rw [if_neg control]
    have shown : ¬ c.toNat < 0x20 := by
      intro small
      exact control (by simp [Value.isControl, small])
    refine ⟨offset + c.utf8Size, ?_⟩
    have text : c.toString.toList ++ rest = c :: rest := by simp
    rw [text, readString]
    simp only [if_neg quote, if_neg backslash, if_neg shown]

/-- A character is printed as some text. -/
theorem length_escaped (chars : List Char) :
    chars.length ≤ (String.join (chars.map Value.escapeShown)).toList.length := by
  have some_text (c : Char) : 0 < (Value.escapeShown c).toList.length := by
    unfold Value.escapeShown
    split_ifs <;> simp [Value.unicodeEscape]
  induction chars with
  | nil => exact Nat.zero_le _
  | cons c rest ih =>
    have first := some_text c
    rw [List.map_cons, String.join_cons, String.toList_append, List.length_append, List.length_cons]
    omega

/-- A printed string is read up to its closing quote. -/
theorem readString_quote (chars rest : List Char) {fuel : Nat} (enough : chars.length < fuel) (offset : Nat) :
    ∃ stop, readString fuel ⟨(String.join (chars.map Value.escapeShown)).toList ++ '"' :: rest, offset⟩
      = .ok (chars, ⟨rest, stop⟩) := by
  induction chars generalizing fuel offset with
  | nil =>
    obtain ⟨fuel, rfl⟩ := Nat.exists_eq_succ_of_ne_zero (Nat.pos_iff_ne_zero.mp enough)
    exact ⟨_, rfl⟩
  | cons c more ih =>
    obtain ⟨fuel, rfl⟩ := Nat.exists_eq_succ_of_ne_zero (Nat.ne_zero_of_lt enough)
    have split : (String.join ((c :: more).map Value.escapeShown)).toList ++ '"' :: rest
        = (Value.escapeShown c).toList ++ ((String.join (more.map Value.escapeShown)).toList ++ '"' :: rest) := by
      simp [String.join_cons]
    obtain ⟨middle, first⟩ := readString_escapeShown c
      ((String.join (more.map Value.escapeShown)).toList ++ '"' :: rest) fuel offset
    obtain ⟨stop, later⟩ := ih (by simpa using enough) middle
    exact ⟨stop, by rw [split, first, later]; rfl⟩

/-! ## Parts of documents -/

/-- A text in which an item of a list may start. -/
def StartsItem (text : List Char) : Prop :=
  ∃ c rest, text = c :: rest ∧ isSpace c = false ∧ c ≠ ']'

theorem StartsItem.append {text : List Char} (h : StartsItem text) (rest : List Char) : StartsItem (text ++ rest) := by
  obtain ⟨c, more, rfl, first⟩ := h
  exact ⟨c, more ++ rest, rfl, first⟩

theorem isSpace_of_isDigit {c : Char} (digit : c.isDigit = true) : isSpace c = false := by
  have other (d : Char) (not : d.isDigit = false) : (c == d) = false := by
    rw [beq_eq_false_iff_ne]
    rintro rfl
    rw [not] at digit
    cases digit
  rw [isSpace, other ' ' rfl, other '\n' rfl, other '\t' rfl, other '\r' rfl]
  rfl

theorem readValue_quote (rest : List Char) (fuel depth offset : Nat) :
    readValue (fuel + 1) depth ⟨'"' :: rest, offset⟩ = (do
      let (chars, input) ← readString fuel ⟨rest, offset + 1⟩
      return (.string (String.ofList chars), input)) := by
  rw [readValue, skip_cons rfl]
  rfl

theorem readValue_minus (rest : List Char) (fuel depth offset : Nat) :
    readValue (fuel + 1) depth ⟨'-' :: rest, offset⟩ = readNumber false ⟨rest, offset + 1⟩ := by
  rw [readValue, skip_cons rfl]
  rfl

theorem readValue_digit {c : Char} (digit : c.isDigit = true) (rest : List Char) (fuel depth offset : Nat) :
    readValue (fuel + 1) depth ⟨c :: rest, offset⟩ = readNumber true ⟨c :: rest, offset⟩ := by
  have other (d : Char) (not : d.isDigit = false) : c ≠ d := by
    rintro rfl
    rw [not] at digit
    cases digit
  rw [readValue, skip_cons (isSpace_of_isDigit digit)]
  simp only [if_neg (other 'n' rfl), if_neg (other 't' rfl), if_neg (other 'f' rfl), if_neg (other '-' rfl),
    digit?_of_isDigit digit, Option.isSome_some, if_true]

theorem readValue_bracket (rest : List Char) (fuel depth offset : Nat) :
    readValue (fuel + 1) (depth + 1) ⟨'[' :: rest, offset⟩ = (do
      let (items, input) ← readItems fuel depth true ⟨rest, offset + 1⟩
      return (.array items, input)) := by
  rw [readValue, skip_cons rfl]
  rfl

section

variable {fuel depth offset : Nat} {item : Json} {items : List Json} {blanks rest tail : List Char}

/-- A list ends at its bracket. -/
theorem readItems_close (all : ∀ c ∈ blanks, isSpace c = true) (first : Bool) :
    readItems (fuel + 1) depth first ⟨blanks ++ ']' :: tail, offset⟩ = .ok ([], ⟨tail, offset + blanks.length + 1⟩) := by
  have skipped := @skip_append blanks (']' :: tail) offset all fun _ _ same => by cases same; rfl
  rw [readItems, skipped]
  rfl

/-- The first item of a list stands after blanks. -/
theorem readItems_first (all : ∀ c ∈ blanks, isSpace c = true) (starts : StartsItem rest) :
    readItems (fuel + 1) depth true ⟨blanks ++ rest, offset⟩ = (do
      let (item, input) ← readValue fuel depth ⟨rest, offset + blanks.length⟩
      let (items, input) ← readItems fuel depth false input
      return (item :: items, input)) := by
  obtain ⟨c, more, rfl, inked, opens⟩ := starts
  have skipped := @skip_append blanks (c :: more) offset all fun _ _ same => by cases same; exact inked
  rw [readItems, skipped]
  simp only [if_neg opens, if_true]

/-- Each other one stands after a comma and blanks. -/
theorem readItems_comma (all : ∀ c ∈ blanks, isSpace c = true) (starts : StartsItem rest) :
    readItems (fuel + 1) depth false ⟨',' :: (blanks ++ rest), offset⟩ = (do
      let (item, input) ← readValue fuel depth ⟨rest, offset + 1 + blanks.length⟩
      let (items, input) ← readItems fuel depth false input
      return (item :: items, input)) := by
  obtain ⟨c, more, rfl, inked, opens⟩ := starts
  have skipped := @skip_append blanks (c :: more) (offset + 1) all fun _ _ same => by cases same; exact inked
  have after : Input.advance ⟨',' :: (blanks ++ c :: more), offset⟩ 1 = ⟨blanks ++ c :: more, offset + 1⟩ := rfl
  rw [readItems, skip_cons rfl]
  simp only [after, skipped, if_neg opens]
  rfl

end

end Json

theorem Shape.mem_scalarsOf {v item : Value} {items : List Value} (member : item ∈ items) (among : v ∈ scalars item) :
    v ∈ scalarsOf items := by
  induction items with
  | nil => cases member
  | cons first rest ih =>
    rw [scalarsOf, List.mem_append]
    rcases List.mem_cons.mp member with rfl | later
    · exact .inl among
    · exact .inr (ih later)

namespace Value

/-! ## What is read back -/

/-- The value that a sign and the digits of an integer are read as: an integer in the range of 64 bits, and a
floating-point number past it. -/
def ofWhole (positive : Bool) (n : Nat) : Value :=
  if n < 2 ^ 64 then
    if positive then .uint (BitVec.ofNat 128 n)
    else if 0 < n ∧ n ≤ 2 ^ 63 then .sint (BitVec.ofInt 128 (-(n : Int)))
    else .float (Double.ofInt n).neg
  else .float (if positive then Json.approximate n else (Json.approximate n).neg)

mutual

/-- The value that the printed form of a value without floating-point numbers is read as. -/
def reread : Value → Value
  | .uint n => ofWhole true n.toNat
  | .sint n => ofWhole (decide (0 ≤ n.toInt)) n.toInt.natAbs
  | .float x => .float x
  | .hex digits => .text digits
  | .bin digits => .text digits
  | .bytes content => .text (Hex.ofBytes content)
  | .text content => .text content
  | .list items => .list (rereadItems items)

/-- The values that the printed forms of the items of a list are read as. -/
def rereadItems : List Value → List Value
  | [] => []
  | item :: rest => reread item :: rereadItems rest

end

mutual

/-- The levels of lists in a value. -/
def depth : Value → Nat
  | .list items => depthOf items + 1
  | _ => 0

/-- The levels of lists in the items of a list. -/
def depthOf : List Value → Nat
  | [] => 0
  | item :: rest => max (depth item) (depthOf rest)

end

theorem ofJson_whole (positive : Bool) (n : Nat) : ofJson (Json.whole positive n) = .ok (ofWhole positive n) := by
  unfold Json.whole ofWhole Json.integer Json.signedReal
  rw [Nat.one_shiftLeft]
  cases positive <;> split_ifs <;> rfl

/-- The printed form of a value is read as the value that it is read back as, wherever it stands. -/
structure ReadsBack (pretty : Bool) (value : Value) : Prop where
  starts : ∀ level, Json.StartsItem (value.write (shown Palette.plain pretty) level).toList
  reads : ∀ (level fuel depth offset : Nat) (tail : List Char), value.depth ≤ depth →
    2 * (value.write (shown Palette.plain pretty) level).toList.length ≤ fuel → Json.EndsNumber tail →
    ∃ json stop, Json.readValue fuel depth ⟨(value.write (shown Palette.plain pretty) level).toList ++ tail, offset⟩
        = .ok (json, ⟨tail, stop⟩) ∧ ofJson json = .ok value.reread

section

variable {pretty : Bool}

theorem ReadsBack.of_digits {value : Value} {n : Nat} (small : n < 2 ^ 128)
    (text : ∀ level, (value.write (shown Palette.plain pretty) level).toList = Nat.toDigits 10 n)
    (back : value.reread = ofWhole true n) : value.ReadsBack pretty := by
  have digit (c : Char) (hc : c ∈ Nat.toDigits 10 n) : c.isDigit = true :=
    Nat.isDigit_of_mem_toDigits (by decide) (by decide) hc
  obtain ⟨c, more, digits⟩ := List.exists_cons_of_ne_nil (@Nat.toDigits_ne_nil n 10)
  have first := digit c (by rw [digits]; simp)
  constructor
  · intro level
    rw [text]
    exact ⟨c, more, digits, Json.isSpace_of_isDigit first, by rintro rfl; cases first⟩
  · intro level fuel depth offset tail _ enough ends
    rw [text] at enough ⊢
    obtain ⟨fuel, rfl⟩ := Nat.exists_eq_succ_of_ne_zero (n := fuel) (by rw [digits, List.length_cons] at enough; omega)
    obtain ⟨stop, read⟩ := @Json.readNumber_toDigits true n offset tail small ends
    refine ⟨Json.whole true n, stop, ?_, by rw [back, ofJson_whole]⟩
    rw [← read, digits, List.cons_append, Json.readValue_digit first]

theorem ReadsBack.of_minus {value : Value} {n : Nat} (small : n < 2 ^ 128)
    (text : ∀ level, (value.write (shown Palette.plain pretty) level).toList = '-' :: Nat.toDigits 10 n)
    (back : value.reread = ofWhole false n) : value.ReadsBack pretty := by
  constructor
  · intro level
    rw [text]
    exact ⟨'-', _, rfl, rfl, by decide⟩
  · intro level fuel depth offset tail _ enough ends
    rw [text] at enough ⊢
    obtain ⟨fuel, rfl⟩ := Nat.exists_eq_succ_of_ne_zero (n := fuel) (by rw [List.length_cons] at enough; omega)
    obtain ⟨stop, read⟩ := @Json.readNumber_toDigits false n (offset + 1) tail small ends
    refine ⟨Json.whole false n, stop, ?_, by rw [back, ofJson_whole]⟩
    rw [← read, List.cons_append, Json.readValue_minus]

theorem ReadsBack.of_string {value : Value} {content : String}
    (text : ∀ level, value.write (shown Palette.plain pretty) level = quote escapeShown content)
    (back : value.reread = .text content) : value.ReadsBack pretty := by
  have quoted : (quote escapeShown content).toList
      = '"' :: ((String.join (content.toList.map escapeShown)).toList ++ ['"']) := by
    simp [quote]
  constructor
  · intro level
    rw [text, quoted]
    exact ⟨'"', _, rfl, rfl, by decide⟩
  · intro level fuel depth offset tail _ enough _
    rw [text, quoted] at enough ⊢
    have length := Json.length_escaped content.toList
    simp only [List.length_cons, List.length_append, List.length_nil] at enough
    obtain ⟨fuel, rfl⟩ := Nat.exists_eq_succ_of_ne_zero (n := fuel) (by omega)
    obtain ⟨stop, read⟩ := @Json.readString_quote content.toList tail fuel (by omega) (offset + 1)
    refine ⟨.string content, stop, ?_, by rw [back]; rfl⟩
    rw [List.cons_append, Json.readValue_quote, List.append_assoc, List.singleton_append, read]
    show Except.ok (Json.string (String.ofList content.toList), _) = _
    rw [String.ofList_toList]

/-! ### Scalars -/

theorem readsBack_uint (n : BitVec 128) : (Value.uint n).ReadsBack pretty := by
  refine ReadsBack.of_digits n.isLt (fun level => ?_) rfl
  rw [write, Nat.toString_eq_ofList_toDigits, String.toList_ofList]

theorem readsBack_sint (n : BitVec 128) : (Value.sint n).ReadsBack pretty := by
  have high : n.toInt < 2 ^ 127 := BitVec.toInt_lt
  have low : -2 ^ 127 ≤ n.toInt := BitVec.le_toInt n
  have text (level : Nat) : (Value.sint n).write (shown Palette.plain pretty) level = n.toInt.repr := rfl
  by_cases sign : 0 ≤ n.toInt
  · refine @ReadsBack.of_digits pretty _ n.toInt.natAbs (by omega) (fun level => ?_) (by rw [reread, decide_eq_true sign])
    rw [text, Int.repr_eq_if, if_pos sign, Nat.repr_eq_ofList_toDigits, String.toList_ofList]
    congr 1
    omega
  · refine @ReadsBack.of_minus pretty _ n.toInt.natAbs (by omega) (fun level => ?_) (by rw [reread, decide_eq_false sign])
    have magnitude : (-n.toInt).toNat = n.toInt.natAbs := by omega
    rw [text, Int.repr_eq_if, if_neg sign, magnitude, Nat.repr_eq_ofList_toDigits, String.toList_append]
    simp

theorem write_string {content : String} (value : Value) (level : Nat)
    (text : value.write (shown Palette.plain pretty) level = (shown Palette.plain pretty).string content) :
    value.write (shown Palette.plain pretty) level = quote escapeShown content := by
  rw [text]
  simp [shown, Palette.literal, Palette.plain]

/-! ### Lists -/

/-- A line starts with blanks. -/
theorem isSpace_line {level : Nat} {c : Char} (h : c ∈ ((shown Palette.plain pretty).line level).toList) :
    Json.isSpace c = true := by
  simp only [shown] at h
  split at h
  · simp only [String.toList_append, String.toList_ofList, List.mem_append, List.mem_replicate] at h
    rcases h with line | ⟨_, rfl⟩
    · obtain rfl : c = '\n' := by simpa using line
      rfl
    · rfl
  · simp at h

theorem toList_write_list (item : Value) (rest : List Value) (level : Nat) :
    ((Value.list (item :: rest)).write (shown Palette.plain pretty) level).toList
      = '[' :: (((shown Palette.plain pretty).line (level + 1)).toList
        ++ ((item.write (shown Palette.plain pretty) (level + 1)).toList
          ++ ((writeRest (shown Palette.plain pretty) (level + 1) rest).toList
            ++ (((shown Palette.plain pretty).line level).toList ++ [']'])))) := by
  have opening : (shown Palette.plain pretty).opening = "[" := by simp [shown, Palette.faint, Palette.plain]
  have closing : (shown Palette.plain pretty).closing = "]" := by simp [shown, Palette.faint, Palette.plain]
  rw [write, opening, closing]
  simp

theorem toList_writeRest (item : Value) (rest : List Value) (level : Nat) :
    (writeRest (shown Palette.plain pretty) level (item :: rest)).toList
      = ',' :: (((shown Palette.plain pretty).line level).toList
        ++ ((item.write (shown Palette.plain pretty) level).toList
          ++ (writeRest (shown Palette.plain pretty) level rest).toList)) := by
  have comma : (shown Palette.plain pretty).comma = "," := by simp [shown, Palette.faint, Palette.plain]
  rw [writeRest, comma]
  simp

/-- What follows an item in a list ends a number. -/
theorem endsNumber_writeRest (items : List Value) {level : Nat} {blanks tail : List Char}
    (all : ∀ c ∈ blanks, Json.isSpace c = true) :
    Json.EndsNumber ((writeRest (shown Palette.plain pretty) level items).toList ++ (blanks ++ ']' :: tail)) := by
  have blank (c : Char) (h : Json.isSpace c = true) : Json.digit? c = none ∧ c ≠ '.' ∧ c ≠ 'e' ∧ c ≠ 'E' := by
    simp only [Json.isSpace, Bool.or_eq_true, beq_iff_eq] at h
    rcases h with ((rfl | rfl) | rfl) | rfl <;> decide
  intro c more same
  cases items with
  | nil =>
    rw [writeRest, String.toList_empty, List.nil_append] at same
    cases blanks with
    | nil =>
      cases same
      decide
    | cons space blanks =>
      cases same
      exact blank _ (all _ (by simp))
  | cons item rest =>
    rw [toList_writeRest] at same
    cases same
    decide

/-- An item is read with the items after it. -/
theorem readItem_of_rest {item : Value} (own : item.ReadsBack pretty) {rest : List Value} {level fuel depth : Nat}
    {text tail : List Char} (deep : item.depth ≤ depth)
    (enough : 2 * (item.write (shown Palette.plain pretty) level).toList.length ≤ fuel) (ends : Json.EndsNumber text)
    (later : ∀ offset, ∃ jsons stop, Json.readItems fuel depth false ⟨text, offset⟩ = .ok (jsons, ⟨tail, stop⟩)
      ∧ ofJsonItems jsons = .ok (rereadItems rest)) (offset : Nat) :
    ∃ jsons stop, (do
        let (first, input) ← Json.readValue fuel depth
          ⟨(item.write (shown Palette.plain pretty) level).toList ++ text, offset⟩
        let (others, input) ← Json.readItems fuel depth false input
        return (first :: others, input)) = .ok (jsons, ⟨tail, stop⟩)
      ∧ ofJsonItems jsons = .ok (rereadItems (item :: rest)) := by
  obtain ⟨first, middle, read, back⟩ := own.reads level fuel depth offset text deep enough ends
  obtain ⟨others, stop, read_others, backs⟩ := later middle
  refine ⟨first :: others, stop, ?_, ?_⟩
  · simp only [read, read_others, bind, Except.bind]
    rfl
  · simp only [ofJsonItems, back, backs, bind, Except.bind, rereadItems]
    rfl

/-- The items of a list after the first one are read. -/
theorem readItems_writeRest {items : List Value} (each : ∀ item ∈ items, item.ReadsBack pretty) {level fuel depth : Nat}
    {blanks tail : List Char} (all : ∀ c ∈ blanks, Json.isSpace c = true) (deep : depthOf items ≤ depth)
    (enough : 2 * ((writeRest (shown Palette.plain pretty) level items).toList.length + blanks.length + 1) ≤ fuel)
    (offset : Nat) :
    ∃ jsons stop, Json.readItems fuel depth false
        ⟨(writeRest (shown Palette.plain pretty) level items).toList ++ (blanks ++ ']' :: tail), offset⟩
        = .ok (jsons, ⟨tail, stop⟩)
      ∧ ofJsonItems jsons = .ok (rereadItems items) := by
  induction items generalizing fuel offset with
  | nil =>
    obtain ⟨fuel, rfl⟩ := Nat.exists_eq_succ_of_ne_zero (n := fuel) (by omega)
    rw [writeRest, String.toList_empty, List.nil_append]
    exact ⟨_, _, Json.readItems_close all false, rfl⟩
  | cons item rest ih =>
    obtain ⟨fuel, rfl⟩ := Nat.exists_eq_succ_of_ne_zero (n := fuel) (by omega)
    obtain ⟨deep, deeper⟩ := Nat.max_le.mp deep
    rw [toList_writeRest] at enough ⊢
    simp only [List.length_cons, List.length_append] at enough
    have own := each item (by simp)
    have later (offset : Nat) := @ih (fun item member => each item (by simp [member])) fuel deeper (by omega) offset
    rw [List.cons_append, List.append_assoc, List.append_assoc,
      Json.readItems_comma (fun c hc => isSpace_line hc) ((own.starts level).append _)]
    exact readItem_of_rest own deep (by omega) (endsNumber_writeRest rest all) later _

/-- A list is read back if its items are. -/
theorem readsBack_list {items : List Value} (each : ∀ item ∈ items, item.ReadsBack pretty) :
    (Value.list items).ReadsBack pretty := by
  cases items with
  | nil =>
    have text (level : Nat) : ((Value.list []).write (shown Palette.plain pretty) level).toList = ['[', ']'] := by
      simp [write, shown, Palette.faint, Palette.plain]
    constructor
    · intro level
      exact ⟨'[', _, text level, rfl, by decide⟩
    · intro level fuel depth offset tail deep enough _
      rw [text] at enough ⊢
      simp only [List.length_cons, List.length_nil] at enough
      obtain ⟨fuel, rfl⟩ : ∃ left, fuel = left + 1 + 1 := ⟨fuel - 2, by omega⟩
      obtain ⟨depth, rfl⟩ := Nat.exists_eq_succ_of_ne_zero (n := depth) (Nat.ne_zero_of_lt deep)
      refine ⟨.array [], offset + 1 + 0 + 1, ?_, rfl⟩
      have close := @Json.readItems_close fuel depth (offset + 1) [] tail (by simp) true
      rw [List.cons_append, Json.readValue_bracket]
      exact congrArg (· >>= _) close
  | cons item rest =>
    constructor
    · intro level
      rw [toList_write_list]
      exact ⟨'[', _, rfl, rfl, by decide⟩
    · intro level fuel depth offset tail deep enough _
      obtain ⟨depth, rfl⟩ := Nat.exists_eq_succ_of_ne_zero (n := depth) (Nat.ne_zero_of_lt deep)
      have deep : depthOf (item :: rest) ≤ depth := Nat.le_of_succ_le_succ deep
      obtain ⟨deep, deeper⟩ := Nat.max_le.mp deep
      rw [toList_write_list] at enough ⊢
      simp only [List.length_cons, List.length_append, List.length_nil] at enough
      -- one step of fuel for the list, and one for its first item
      obtain ⟨fuel, rfl⟩ : ∃ left, fuel = left + 1 + 1 := ⟨fuel - 2, by omega⟩
      have own := each item (by simp)
      have closing (c : Char) (hc : c ∈ ((shown Palette.plain pretty).line level).toList) := isSpace_line hc
      have later (offset : Nat) := @readItems_writeRest pretty rest (fun item member => each item (by simp [member]))
        (level + 1) fuel depth _ tail closing deeper (by omega) offset
      obtain ⟨jsons, stop, read, backs⟩ := @readItem_of_rest pretty item own rest (level + 1) fuel depth _ tail deep
        (by omega) (endsNumber_writeRest rest closing) later
        (offset + 1 + ((shown Palette.plain pretty).line (level + 1)).toList.length)
      rw [← Json.readItems_first (fun c hc => isSpace_line hc) ((own.starts (level + 1)).append _)] at read
      refine ⟨.array jsons, stop, ?_, ?_⟩
      · simp only [List.cons_append, List.append_assoc, List.nil_append]
        rw [Json.readValue_bracket]
        exact congrArg (· >>= _) read
      · rw [ofJson, backs]
        rfl

/-! ### Values -/

/-- A value without floating-point numbers is read back. -/
theorem readsBack : (value : Value) → (∀ v ∈ Shape.scalars value, ∀ x, v ≠ .float x) → value.ReadsBack pretty
  | .uint n, _ => readsBack_uint n
  | .sint n, _ => readsBack_sint n
  | .float x, exact => (exact _ (by simp [Shape.scalars]) x rfl).elim
  | .hex digits, _ => ReadsBack.of_string (fun level => write_string _ level rfl) rfl
  | .bin digits, _ => ReadsBack.of_string (fun level => write_string _ level rfl) rfl
  | .bytes content, _ => ReadsBack.of_string (fun level => write_string _ level rfl) rfl
  | .text content, _ => ReadsBack.of_string (fun level => write_string _ level rfl) rfl
  | .list items, exact => readsBack_list fun item member => readsBack item fun v among =>
      exact v (by rw [Shape.scalars]; exact Shape.mem_scalarsOf member among)
termination_by value => sizeOf value
decreasing_by
  have smaller := List.sizeOf_lt_of_mem member
  simp only [Value.list.sizeOf_spec]
  omega

/-- A printed list without floating-point numbers is read back, if it does not nest deeper than the reader goes. -/
theorem parseList_format {values : List Value} (exact : ∀ v ∈ Shape.scalarsOf values, ∀ x, v ≠ .float x)
    (deep : depthOf values + 1 ≤ Json.maxDepth) :
    parseList ((Value.list values).format pretty Palette.plain) = .ok (rereadItems values) := by
  have back : (Value.list values).ReadsBack pretty := readsBack _ exact
  obtain ⟨json, stop, read, result⟩ := back.reads 0
    (2 * ((Value.list values).format pretty Palette.plain).toList.length + 2) Json.maxDepth 0 [] deep
    (Nat.le_add_right _ 2) (fun _ _ none => by cases none)
  rw [List.append_nil] at read
  have parsed : Json.parse ((Value.list values).format pretty Palette.plain) = .ok json := by
    unfold Json.parse
    exact congrArg (· >>= _) read
  rw [parseList, parsed]
  cases json with
  | array items =>
    rw [ofJson, reread] at result
    cases read_items : ofJsonItems items with
    | error e =>
      rw [read_items] at result
      cases result
    | ok back =>
      rw [read_items] at result
      cases result
      exact read_items
  | _ => cases result

end

end Value

end BitTemplate
