import BitTemplate.Field.Encoding
import BitTemplate.Program.Directive

/-!
Why a pattern does not compile. An error has a cause, the span it points to and the text of that span.
-/

namespace BitTemplate

namespace Pattern

/-- The largest number of instructions in a program or a block. -/
def maxInstructions : Nat := 1 <<< 20

/-- What is wrong with a pattern. -/
inductive Cause where
  | unrecognized
  | numberTooLarge
  | zeroWidth
  | partialBytes (encoding : Encoding) (width : Nat)
  | floatWidth (width : Nat)
  | integerTooWide (encoding : Encoding) (width : Nat)
  | partialSwap (width : Nat)
  | unknownSetting (qualifier : String)
  | unknownJump (qualifier : String)
  | jumpWithoutCount
  | emptyLabel
  | markerDigits
  | strayLiteral
  | straySemicolon
  | expectedLiteral
  | expectedSemicolon
  | literalTooLarge
  | unopenedBlock
  | unclosedBlock
  | unboundedRepetition
  | tooManyInstructions
deriving DecidableEq

/-- The families of causes. -/
inductive Family where
  /-- Text that is no token, or a token that stands wrong or has wrong operands. -/
  | parse
  /-- Blocks that do not balance. -/
  | structural
  /-- What has a form but no meaning. -/
  | unsupported
deriving DecidableEq

namespace Cause

/-- The family of a cause. -/
def family : Cause → Family
  | .unclosedBlock => .structural
  | .unboundedRepetition => .unsupported
  | _ => .parse

/-- The wording of a cause. -/
def message : Cause → String
  | .unrecognized => "unrecognized input"
  | .numberTooLarge => "number out of range"
  | .zeroWidth => "width must be greater than zero"
  | .partialBytes encoding width =>
    encoding.name ++ " width must be a multiple of 8, got " ++ toString width
  | .floatWidth width => "float width must be 32 or 64, got " ++ toString width
  | .integerTooWide encoding width => encoding.name ++ " width must be at most 128, got " ++ toString width
  | .partialSwap width => "endian swap width must be a multiple of 8, got " ++ toString width
  | .unknownSetting qualifier => "unknown setting qualifier `" ++ qualifier ++ "`, expected y, n or t"
  | .unknownJump qualifier => "unknown jump qualifier `" ++ qualifier ++ "`, expected s, f, b or e"
  | .jumpWithoutCount => "jump needs a bit count"
  | .emptyLabel => "label name cannot be empty"
  | .markerDigits => "marker literal must be a non-empty, even-length hex string"
  | .strayLiteral => "literal outside of an assertion or label definition"
  | .straySemicolon => "unexpected `;`"
  | .expectedLiteral => "expected a literal after `=`"
  | .expectedSemicolon => "expected `;` after literal"
  | .literalTooLarge => "number literal out of range"
  | .unopenedBlock => "`\x7d` without a matching `\x7b`"
  | .unclosedBlock => "repetition block is never closed"
  | .unboundedRepetition => "unbounded repetition"
  | .tooManyInstructions => "pattern expands to more than " ++ toString maxInstructions ++ " instructions"

end Cause

end Pattern

/-- An error in a pattern. -/
structure PatternError where
  cause : Pattern.Cause
  span : Span
  /-- The text of the span. -/
  token : String

namespace PatternError

/-- The wording of an error. -/
def message (error : PatternError) : String :=
  match error.cause.family with
  | .parse => "parse error: " ++ error.cause.message ++ " at `" ++ error.token ++ "`"
  | .structural => "structural error: " ++ error.cause.message
  | .unsupported => "unsupported pattern feature: " ++ error.cause.message

/-- The wording that stands beside the span in a diagnostic. -/
def label (error : PatternError) : String :=
  match error.cause.family with
  | .unsupported => error.cause.message ++ " is not supported"
  | _ => error.cause.message

end PatternError

end BitTemplate
