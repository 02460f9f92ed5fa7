import BitTemplate.Pattern.Error
import BitTemplate.Pattern.Token
import BitTemplate.Text.Hex

/-!
Statements of patterns. A statement is a directive, one end of a repetition block or a comment. Most statements are one
token; an assertion and the definition of a label with a value go on to a literal and a semicolon.
-/

namespace BitTemplate.Pattern

/-- A part of a pattern that means something by itself. -/
inductive Statement where
  | directive (directive : Directive)
  | openBlock
  /-- The end of a block, with the text of its count. -/
  | closeBlock (count : List Char)
  | comment

/-! ## Numbers -/

/-- The value of a text of decimal digits. -/
def decimal (digits : List Char) : Nat :=
  digits.foldl (fun n c => 10 * n + (c.toNat - '0'.toNat)) 0

/-- The value of a text of hexadecimal digits. -/
def hexadecimal (digits : List Char) : Nat :=
  digits.foldl (fun n c => 16 * n + (Hex.digit? c).getD 0) 0

/-- A count below `2 ^ 64`. -/
def count (digits : List Char) : Except Cause Nat :=
  let n := decimal digits
  if n < 1 <<< 64 then .ok n else .error .numberTooLarge

/-- A positive count. -/
def width (digits : List Char) : Except Cause Nat := do
  let n ← count digits
  if n = 0 then .error .zeroWidth else return n

/-- A positive count, or the rest of the data. -/
def extentOf (text : List Char) : Except Cause Width :=
  if text = ['$'] then .ok .rest else return .bits (← width text)

/-- The integer of a sign and a magnitude of at most 127 bits. -/
def signedLiteral (negative : Bool) (magnitude : Nat) : Except Cause Literal :=
  if magnitude < 1 <<< 127 then
    .ok (.int (BitVec.ofInt 128 (if negative then -(magnitude : Int) else magnitude)))
  else .error .literalTooLarge

/-- The literal of a sign and the digits of a number. -/
def unsignedLiteral (negative : Bool) (digits : List Char) : Except Cause Literal :=
  match digits with
  | '0' :: 'x' :: hex => signedLiteral negative (hexadecimal hex)
  | '0' :: 'X' :: hex => signedLiteral negative (hexadecimal hex)
  | _ =>
    match digits.span (· != '.') with
    | (whole, _ :: fraction) =>
      let x := Double.ofDecimal (decimal (whole ++ fraction)) (-(fraction.length : Int))
      .ok (.float (if negative then x.neg else x))
    | _ => signedLiteral negative (decimal digits)

/-- The literal of a number. -/
def numberLiteral (text : List Char) : Except Cause Literal :=
  match text with
  | '-' :: digits => unsignedLiteral true digits
  | digits => unsignedLiteral false digits

/-! ## Operands -/

/-- The text between the quotes after the first `count` characters. -/
def between (count : Nat) (text : List Char) : List Char :=
  (text.drop count).dropLast

/-- A name between quotes. -/
def labelName (count : Nat) (text : List Char) : Except Cause String :=
  let name := between count text
  if name.isEmpty then .error .emptyLabel else .ok (String.ofList name)

/-- A field. Its width fits the encoding; a byte field up to the end of the data takes all of it. -/
def field (text : List Char) : Except Cause Directive :=
  match text with
  | [] => .error .unrecognized
  | letter :: operand =>
    match Encoding.ofLetter? letter with
    | none => .error .unrecognized
    | some encoding =>
      if operand = ['$'] then
        .ok (if encoding.needsBytes then .takeAll encoding else .value encoding .rest)
      else do
        let bits ← width operand
        if encoding.needsBytes ∧ bits % 8 ≠ 0 then .error (.partialBytes encoding bits)
        else if encoding = .float ∧ bits ≠ 32 ∧ bits ≠ 64 then .error (.floatWidth bits)
        else if (encoding = .uint ∨ encoding = .sint) ∧ 128 < bits then .error (.integerTooWide encoding bits)
        else return .value encoding (.bits bits)

/-- Bits of one value, or bits that do not matter. -/
def fill (text : List Char) : Except Cause Directive := do
  let bits ← width (text.drop 1)
  match text.head? with
  | some 'n' => return .constant false bits
  | some 'z' => return .constant false bits
  | some 'N' => return .constant true bits
  | some 'o' => return .constant true bits
  | _ => return .next bits

/-- A change at the cursor. -/
def modifier (text : List Char) : Except Cause Directive := do
  let extent ← extentOf (text.drop 1)
  match text.head?, extent with
  | some 'r', extent => return .mod .reverse extent
  | some 'i', extent => return .mod .invert extent
  | _, .bits bits => if bits % 8 = 0 then return .mod .endianSwap (.bits bits) else .error (.partialSwap bits)
  | _, .rest => return .mod .endianSwap .rest

/-- A change at a distance from the cursor. -/
def offsetModifier (text : List Char) : Except Cause Directive := do
  let (distance, extent) := (text.drop 1).span (· != '.')
  let offset ← count distance
  let extent ← extentOf (extent.drop 1)
  match text.head? with
  | some 'r' => return .modOff .reverse offset extent
  | some 'i' => return .modOff .invert offset extent
  | _ => return .modOff .pull offset extent

/-- A lasting change. -/
def flagSetting (text : List Char) : Except Cause Directive := do
  let flag := match text.head? with
    | some 'R' => Flag.reverseAll
    | some 'I' => Flag.invertAll
    | _ => Flag.endianSwapAll
  match text.drop 1 with
  | ['y'] => return .control (.setFlag flag .set)
  | ['n'] => return .control (.setFlag flag .clear)
  | ['t'] => return .control (.setFlag flag .toggle)
  | qualifier => .error (.unknownSetting (String.ofList qualifier))

/-- The origin that a letter names. -/
def jumpOrigin (letter : Option Char) : Except Cause JumpOrigin :=
  match letter with
  | some 's' => .ok .start
  | some 'f' => .ok .forward
  | some 'b' => .ok .backward
  | some 'e' => .ok .stop
  | other => .error (.unknownJump (String.ofList other.toList))

/-- A jump. -/
def jump (text : List Char) : Except Cause Directive := do
  let origin ← jumpOrigin (text.drop 1).head?
  let digits := text.drop 2
  if digits.isEmpty then .error .jumpWithoutCount else return .jump origin (← count digits)

/-- A marker. -/
def marker (last : Bool) (text : List Char) : Except Cause Directive :=
  match Hex.pairs? (between 3 text) with
  | some (byte :: rest) => .ok (.marker last (byte :: rest))
  | _ => .error .markerDigits

/-! ## Reading -/

/-- The error of a cause at a span. -/
def errorAt (source : List Char) (span : Span) (cause : Cause) : PatternError :=
  ⟨cause, span, String.ofList (span.of source)⟩

/-- A literal and its semicolon: the literal, the end of the semicolon and the tokens after it. -/
def readLiteral (source : List Char) (after : Nat) (tokens : List Token) :
    Except PatternError (Literal × Nat × List Token) := do
  match tokens with
  | [] => .error (errorAt source ⟨after, after⟩ .expectedLiteral)
  | token :: rest =>
    let literal ← match token.kind with
      | .number => (numberLiteral (token.text source)).mapError (errorAt source token.span)
      | .str => .ok (.str (String.ofList (between 1 (token.text source))))
      | _ => .error (errorAt source token.span .expectedLiteral)
    match rest with
    | [] => .error (errorAt source ⟨token.span.stop, token.span.stop⟩ .expectedSemicolon)
    | semicolon :: rest =>
      if semicolon.kind = .semicolon then return (literal, semicolon.span.stop, rest)
      else .error (errorAt source semicolon.span .expectedSemicolon)

/-- The statement of a token that needs no other token. -/
def single (kind : TokenKind) (text : List Char) : Except Cause Statement :=
  match kind with
  | .field => .directive <$> field text
  | .fill => .directive <$> fill text
  | .mod => .directive <$> modifier text
  | .modOff => .directive <$> offsetModifier text
  | .modSet => .directive <$> flagSetting text
  | .bracketOpen => .ok (.directive (.control .nestOpen))
  | .bracketClose => .ok (.directive (.control .nestClose))
  | .braceOpen => .ok .openBlock
  | .braceClose => .ok (.closeBlock (text.drop 1))
  | .setLabel => do return .directive (.control (.setLabel (← labelName 3 text)))
  | .matchLabel => do return .directive (.control (.matchLabel (← labelName 3 text)))
  | .defLabel => do return .directive (.control (.defLabel (← labelName 2 text) none))
  | .markerStart => .directive <$> marker false text
  | .markerEnd => .directive <$> marker true text
  | .jump => .directive <$> jump text
  | .comment => .ok .comment
  | .semicolon => .error .straySemicolon
  | .str => .error .strayLiteral
  | .number => .error .strayLiteral
  | .equals => .error .expectedLiteral
  | .garbage => .error .unrecognized

/-- The statement that starts with a token: its meaning, its span and the tokens after it. -/
def readStatement (source : List Char) (token : Token) (tokens : List Token) :
    Except PatternError (Statement × Span × List Token) := do
  match token.kind, tokens with
  | .equals, tokens =>
    let (expected, stop, tokens) ← readLiteral source token.span.stop tokens
    return (.directive (.control (.assertion expected)), ⟨token.span.start, stop⟩, tokens)
  | .defLabel, ⟨.equals, _⟩ :: tokens =>
    let name ← (labelName 2 (token.text source)).mapError (errorAt source token.span)
    let (value, stop, tokens) ← readLiteral source token.span.stop tokens
    return (.directive (.control (.defLabel name (some value))), ⟨token.span.start, stop⟩, tokens)
  | kind, tokens =>
    let statement ← (single kind (token.text source)).mapError (errorAt source token.span)
    return (statement, token.span, tokens)

end BitTemplate.Pattern
