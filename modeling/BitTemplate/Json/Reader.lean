import BitTemplate.Json.Number
import BitTemplate.Text.Hex
import BitTemplate.Text.Utf8

/-!
Reading JSON documents. The reader goes through the text once. Lists and objects nest at most 127 levels deep, and the
fuel of the mutual functions, one more than the length of the text, never runs out: every step takes a character.
-/

namespace BitTemplate.Json

/-! ## Blanks and words -/

/-- Whether a character may stand between the parts of a document. -/
def isSpace (c : Char) : Bool :=
  c == ' ' || c == '\n' || c == '\t' || c == '\r'

/-- The input after its leading blanks. -/
def Input.skip (input : Input) : Input :=
  input.advance (input.rest.takeWhile isSpace).length

/-- The rest of a word after its first letter. -/
def readWord (value : Json) : List Char → Input → Except Error (Json × Input)
  | [], input => .ok (value, input)
  | letter :: letters, input =>
    match input.rest with
    | [] => input.fail .endInValue
    | c :: _ => if c = letter then readWord value letters (input.advance 1) else (input.advance 1).fail .expectedWord

/-! ## Strings -/

/-- Four hexadecimal digits as a number. -/
def readFour (input : Input) : Except Error (Nat × Input) :=
  let digits := input.rest.take 4
  match digits.mapM Hex.digit? with
  | some [a, b, c, d] => .ok (((a * 16 + b) * 16 + c) * 16 + d, input.advance 4)
  | _ =>
    if Text.utf8Length digits < 4 then .error ⟨.endInString, input.offset + Text.utf8Length digits⟩
    else .error ⟨.invalidEscape, input.offset + 4⟩

/-- One fixed character, the next part of a pair of escapes. -/
def readPairPart (part : Char) (input : Input) : Except Error Input :=
  match input.rest with
  | [] => input.fail .endInString
  | c :: _ => if c = part then .ok (input.advance 1) else (input.advance 1).fail .brokenEscape

/-- The character of an escape by code. A code of the first half of a pair asks for an escape of the second half. -/
def readCode (input : Input) : Except Error (Char × Input) := do
  let (first, input) ← readFour input
  if 0xdc00 ≤ first ∧ first ≤ 0xdfff then input.fail .loneSurrogate
  else if 0xd800 ≤ first ∧ first ≤ 0xdbff then
    let input ← readPairPart '\\' input
    let input ← readPairPart 'u' input
    let (second, input) ← readFour input
    if 0xdc00 ≤ second ∧ second ≤ 0xdfff then
      return (Char.ofNat ((first - 0xd800) * 0x400 + (second - 0xdc00) + 0x10000), input)
    else input.fail .loneSurrogate
  else return (Char.ofNat first, input)

/-- The character of an escape after its backslash. -/
def readEscape (input : Input) : Except Error (Char × Input) :=
  match input.rest with
  | [] => input.fail .endInString
  | c :: _ =>
    let input := input.advance 1
    if c = '"' ∨ c = '\\' ∨ c = '/' then .ok (c, input)
    else if c = 'b' then .ok ('\x08', input)
    else if c = 'f' then .ok ('\x0c', input)
    else if c = 'n' then .ok ('\n', input)
    else if c = 'r' then .ok ('\r', input)
    else if c = 't' then .ok ('\t', input)
    else if c = 'u' then readCode input
    else input.fail .invalidEscape

/-- The characters of a string after its opening quote. -/
def readString : (fuel : Nat) → Input → Except Error (List Char × Input)
  | 0, input => input.fail .endInString
  | fuel + 1, input =>
    match input.rest with
    | [] => input.fail .endInString
    | c :: rest =>
      if c = '"' then .ok ([], input.advance 1)
      else if c = '\\' then do
        let (char, input) ← readEscape (input.advance 1)
        let (chars, input) ← readString fuel input
        return (char :: chars, input)
      else if c.toNat < 0x20 then (input.advance 1).fail .controlInString
      else do
        let (chars, input) ← readString fuel ⟨rest, input.offset + c.utf8Size⟩
        return (c :: chars, input)

/-! ## Documents -/

mutual

/-- A value, with the number of levels that it may still open. -/
def readValue : (fuel depth : Nat) → Input → Except Error (Json × Input)
  | 0, _, input => input.failAhead .endInValue
  | fuel + 1, depth, start =>
    let input := start.skip
    match input.rest with
    | [] => input.failAhead .endInValue
    | c :: _ =>
      if c = 'n' then readWord .null ['u', 'l', 'l'] (input.advance 1)
      else if c = 't' then readWord (.bool true) ['r', 'u', 'e'] (input.advance 1)
      else if c = 'f' then readWord (.bool false) ['a', 'l', 's', 'e'] (input.advance 1)
      else if c = '-' then readNumber false (input.advance 1)
      else if (digit? c).isSome then readNumber true input
      else if c = '"' then do
        let (chars, input) ← readString fuel (input.advance 1)
        return (.string (String.ofList chars), input)
      else if c = '[' then
        if depth = 0 then input.failAhead .tooDeep
        else do
          let (items, input) ← readItems fuel (depth - 1) true (input.advance 1)
          return (.array items, input)
      else if c = '\x7b' then
        if depth = 0 then input.failAhead .tooDeep
        else do
          let (members, input) ← readMembers fuel (depth - 1) true (input.advance 1)
          return (.object members, input)
      else input.failAhead .expectedValue

/-- The items of a list up to its end; only the first one has no comma before it. -/
def readItems : (fuel depth : Nat) → (first : Bool) → Input → Except Error (List Json × Input)
  | 0, _, _, input => input.failAhead .endInList
  | fuel + 1, depth, first, start =>
    let input := start.skip
    match input.rest with
    | [] => input.failAhead .endInList
    | c :: _ =>
      if c = ']' then .ok ([], input.advance 1)
      else if first then do
        let (item, input) ← readValue fuel depth input
        let (items, input) ← readItems fuel depth false input
        return (item :: items, input)
      else if c = ',' then
        let input := (input.advance 1).skip
        match input.rest with
        | [] => input.failAhead .endInValue
        | c :: _ =>
          if c = ']' then input.failAhead .trailingComma
          else do
            let (item, input) ← readValue fuel depth input
            let (items, input) ← readItems fuel depth false input
            return (item :: items, input)
      else input.failAhead .expectedListEnd

/-- The members of an object up to its end; only the first one has no comma before it. -/
def readMembers : (fuel depth : Nat) → (first : Bool) → Input → Except Error (List (String × Json) × Input)
  | 0, _, _, input => input.failAhead .endInObject
  | fuel + 1, depth, first, start =>
    let input := start.skip
    match input.rest with
    | [] => input.failAhead .endInObject
    | c :: _ =>
      if c = '\x7d' then .ok ([], input.advance 1)
      else if first then
        if c = '"' then readMember fuel depth input else input.failAhead .keyNotString
      else if c = ',' then
        let input := (input.advance 1).skip
        match input.rest with
        | [] => input.failAhead .endInValue
        | c :: _ =>
          if c = '"' then readMember fuel depth input
          else if c = '\x7d' then input.failAhead .trailingComma
          else input.failAhead .keyNotString
      else input.failAhead .expectedObjectEnd

/-- A member, from the quote of its key on, and the members after it. -/
def readMember : (fuel depth : Nat) → Input → Except Error (List (String × Json) × Input)
  | 0, _, input => input.failAhead .endInObject
  | fuel + 1, depth, start => do
    let (key, input) ← readString fuel (start.advance 1)
    let input := input.skip
    match input.rest with
    | [] => input.failAhead .endInObject
    | c :: _ =>
      if c = ':' then
        let (value, input) ← readValue fuel depth (input.advance 1)
        let (members, input) ← readMembers fuel depth false input
        return ((String.ofList key, value) :: members, input)
      else input.failAhead .expectedColon

end

/-- The levels of lists and objects that a document may open. -/
def maxDepth : Nat := 127

/-- The document that a text is. -/
def parse (text : String) : Except Error Json := do
  let chars := text.toList
  let (value, input) ← readValue (2 * chars.length + 2) maxDepth ⟨chars, 0⟩
  let input := input.skip
  if input.rest.isEmpty then return value else input.failAhead .trailingText

end BitTemplate.Json
