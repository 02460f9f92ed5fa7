import BitTemplate.Program.Directive
import BitTemplate.Text.Regular
import BitTemplate.Text.Utf8

/-!
Tokens of patterns. Each kind of token is a regular expression; a token carries its operands, so a field is one token
with its letter and its width. Spans count bytes.
-/

namespace BitTemplate

/-! ## Spans -/

/-- The characters after the first `count` bytes. -/
def dropBytes : (count : Nat) → List Char → List Char
  | 0, text => text
  | _, [] => []
  | count, c :: rest => dropBytes (count - c.utf8Size) rest
  termination_by structural _ text => text

/-- The characters of the first `count` bytes. -/
def takeBytes : (count : Nat) → List Char → List Char
  | 0, _ => []
  | _, [] => []
  | count, c :: rest => c :: takeBytes (count - c.utf8Size) rest
  termination_by structural _ text => text

/-- The part of a text that a span covers. -/
def Span.of (text : List Char) (span : Span) : List Char :=
  takeBytes (span.stop - span.start) (dropBytes span.start text)

namespace Pattern

/-! ## Kinds -/

/-- The kinds of tokens. -/
inductive TokenKind where
  /-- A field: an encoding and a width. -/
  | field
  /-- Bits of one value, or bits that do not matter. -/
  | fill
  /-- A one-time change at the cursor. -/
  | mod
  /-- A one-time change at a distance from the cursor. -/
  | modOff
  /-- A lasting change. -/
  | modSet
  | bracketOpen
  | bracketClose
  | braceOpen
  /-- The end of a block with its count. -/
  | braceClose
  | setLabel
  | defLabel
  | matchLabel
  | markerStart
  | markerEnd
  | jump
  | equals
  | semicolon
  | str
  | number
  | comment
  /-- What is no token. -/
  | garbage
deriving DecidableEq, Repr

open Text.Regular in
/-- A decimal digit. -/
def digit : Text.Regular :=
  one fun c => '0' ≤ c && c ≤ '9'

open Text.Regular in
/-- A hexadecimal digit. -/
def hexDigit : Text.Regular :=
  one fun c => ('0' ≤ c && c ≤ '9') || ('a' ≤ c && c ≤ 'f') || ('A' ≤ c && c ≤ 'F')

open Text.Regular in
/-- An ASCII letter. -/
def letter : Text.Regular :=
  one fun c => ('a' ≤ c && c ≤ 'z') || ('A' ≤ c && c ≤ 'Z')

open Text.Regular in
/-- A number of bits, or a dollar sign for the rest of the data. -/
def extent : Text.Regular :=
  alt (plus digit) (char '$')

open Text.Regular in
/-- Characters between double quotes, after some others. -/
def quotedAfter (start : List Char) : Text.Regular :=
  seq (word (start ++ ['"'])) (seq (star (one (· != '"'))) (char '"'))

open Text.Regular in
/-- The texts of a kind of token. -/
def TokenKind.texts : TokenKind → Text.Regular
  | .field => seq (oneOf ['u', 's', 'x', 'X', 'b', 'B', 'C', 'f']) extent
  | .fill => seq (oneOf ['n', 'N', 'z', 'o', '_']) (plus digit)
  | .mod => alt (seq (oneOf ['r', 'i']) extent) (seq (char 'e') (plus digit))
  | .modOff => seq (oneOf ['r', 'i', 'p']) (seq (plus digit) (seq (char '.') extent))
  | .modSet => seq (oneOf ['R', 'I', 'E']) letter
  | .bracketOpen => char '['
  | .bracketClose => char ']'
  | .braceOpen => char '\x7b'
  | .braceClose => seq (char '\x7d') (option extent)
  | .setLabel => quotedAfter ['=', '#']
  | .defLabel => quotedAfter ['#']
  | .matchLabel => quotedAfter ['?', '#']
  | .markerStart => quotedAfter ['m', '^']
  | .markerEnd => quotedAfter ['m', '$']
  | .jump => seq (char 'j') (seq letter (star digit))
  | .equals => char '='
  | .semicolon => char ';'
  | .str => quotedAfter []
  | .number =>
    seq (option (char '-'))
      (alt (seq (char '0') (seq (oneOf ['x', 'X']) (plus hexDigit)))
        (seq (plus digit) (option (seq (char '.') (plus digit)))))
  | .comment => seq (word ['#', '#']) (star (one (· != '\n')))
  | .garbage => void

/-- The kinds that have texts. -/
def TokenKind.all : List TokenKind :=
  [.field, .fill, .mod, .modOff, .modSet, .bracketOpen, .bracketClose, .braceOpen, .braceClose, .setLabel, .defLabel,
    .matchLabel, .markerStart, .markerEnd, .jump, .equals, .semicolon, .str, .number, .comment]

/-- A token. -/
structure Token where
  kind : TokenKind
  span : Span
deriving DecidableEq, Repr

/-- The text of a token in its pattern. -/
def Token.text (source : List Char) (token : Token) : List Char :=
  token.span.of source

end Pattern

end BitTemplate
