import BitTemplate.Double

/-!
JSON documents and the ways in which a text fails to be one. An error has a cause and the offset in bytes up to which
the text was read; its message gives the offset as a line and a column.
-/

namespace BitTemplate

/-- A JSON document. A number is an integer where 64 bits hold it, and a floating-point number elsewhere. -/
inductive Json where
  | null
  | bool (b : Bool)
  | natural (n : Nat)
  | negative (n : Int)
  | real (x : Double)
  | string (text : String)
  | array (items : List Json)
  | object (members : List (String × Json))

namespace Json

/-! ## Errors -/

/-- Why a text is no JSON document. -/
inductive Cause where
  | endInList
  | endInObject
  | endInString
  | endInValue
  | expectedColon
  | expectedListEnd
  | expectedObjectEnd
  | expectedWord
  | expectedValue
  | invalidEscape
  | invalidNumber
  | numberOutOfRange
  | controlInString
  | keyNotString
  | loneSurrogate
  | trailingComma
  | trailingText
  | brokenEscape
  | tooDeep
deriving DecidableEq

/-- The wording of a cause. -/
def Cause.message : Cause → String
  | .endInList => "EOF while parsing a list"
  | .endInObject => "EOF while parsing an object"
  | .endInString => "EOF while parsing a string"
  | .endInValue => "EOF while parsing a value"
  | .expectedColon => "expected `:`"
  | .expectedListEnd => "expected `,` or `]`"
  | .expectedObjectEnd => "expected `,` or `\x7d`"
  | .expectedWord => "expected ident"
  | .expectedValue => "expected value"
  | .invalidEscape => "invalid escape"
  | .invalidNumber => "invalid number"
  | .numberOutOfRange => "number out of range"
  | .controlInString => "control character (\\u0000-\\u001F) found while parsing a string"
  | .keyNotString => "key must be a string"
  | .loneSurrogate => "lone leading surrogate in hex escape"
  | .trailingComma => "trailing comma"
  | .trailingText => "trailing characters"
  | .brokenEscape => "unexpected end of hex escape"
  | .tooDeep => "recursion limit exceeded"

/-- A cause and the offset in bytes at which it was found. -/
structure Error where
  cause : Cause
  offset : Nat
deriving DecidableEq

/-- The line and the column of a byte offset, both counted up from the given start. -/
def position : (left line column : Nat) → List Char → Nat × Nat
  | 0, line, column, _ => (line, column)
  | _, line, column, [] => (line, column)
  | left + 1, line, column, c :: rest =>
    if c = '\n' then position left (line + 1) 0 rest
    else position (left + 1 - c.utf8Size) line (column + min c.utf8Size (left + 1)) rest
  termination_by structural _ _ _ text => text

/-- The message of an error in a text. -/
def Error.message (error : Error) (text : String) : String :=
  let (line, column) := position error.offset 1 0 text.toList
  error.cause.message ++ " at line " ++ toString line ++ " column " ++ toString column

end Json

end BitTemplate
