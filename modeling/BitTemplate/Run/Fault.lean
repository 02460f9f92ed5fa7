import BitTemplate.Field.Error
import BitTemplate.Program.Listing
import BitTemplate.Shape
import BitTemplate.Transform

/-!
Why a run fails. A fault is a cause; its family groups causes for programs that react to them and its message words them
for readers. An error is a fault together with the place in the program and in the record where it arose.
-/

namespace BitTemplate

/-! ## Faults -/

/-- The steps that need the cursor on a byte boundary. -/
inductive AlignedStep where
  | takeAll
  | markerScan
deriving DecidableEq

/-- What went wrong in a run. -/
inductive Fault where
  -- structure of the record
  | closeWithoutOpen
  | leftOpen (count : Nat)
  | unusedInput (count : Nat)
  | shapeMismatch (input produced : String)
  | writtenAfterRest (bits : Nat)
  -- expectations about data
  | notConstant (bit : Bool) (bits : Bits)
  | labelMismatch (found : Value) (name : String) (expected : Value)
  | assertionMismatch (expected : Literal) (found : Value)
  | assertionWithoutValue (expected : Literal)
  | markerReadBack (bytes : List UInt8) (found : Value)
  | markerElsewhere (bytes : List UInt8) (found : Option Nat) (expected : Nat)
  -- lack of data
  | seekOutside (target : Int) (length : Nat)
  | tooFewBits (width position available : Nat)
  | regionOutside (transform : Transform) (length : Nat)
  | jumpPastEnd (target : Int) (length : Nat)
  | unreadBits (count : Nat)
  -- labels
  | nothingToBind (name : String)
  | undefinedLabel (name : String)
  | labelWithoutValue (name : String)
  | nothingToMatch (name : String)
  -- scans and jumps
  | markerNotFound (bytes : List UInt8)
  | jumpBeforeStart (bits : Nat)
  | jumpBeforeCursor (target position : Nat)
  | jumpMismatch (gap expected target : Nat)
  -- alignment
  | partialBytes (width : Nat)
  | openEndedSwap
  | unaligned (step : AlignedStep) (position : Nat)
  | unpaddable (value : Value) (stop padding : Nat)
  -- input and limits
  | noInput
  | field (error : FieldError)
  | stepLimit (limit : Nat)
  | sizeLimit (limit : Nat)

namespace Fault

/-- The families of faults. -/
inductive Family where
  | structural
  | dataMismatch
  | incompleteData
  | label
  | markerNotFound
  | jumpRange
  | alignment
  | underflow
  | codec
  | stepLimit
  | sizeLimit
deriving DecidableEq

/-- The family of a fault. -/
def family : Fault → Family
  | .closeWithoutOpen => .structural
  | .leftOpen _ => .structural
  | .unusedInput _ => .structural
  | .shapeMismatch _ _ => .structural
  | .writtenAfterRest _ => .structural
  | .notConstant _ _ => .dataMismatch
  | .labelMismatch _ _ _ => .dataMismatch
  | .assertionMismatch _ _ => .dataMismatch
  | .assertionWithoutValue _ => .dataMismatch
  | .markerReadBack _ _ => .dataMismatch
  | .markerElsewhere _ _ _ => .dataMismatch
  | .seekOutside _ _ => .incompleteData
  | .tooFewBits _ _ _ => .incompleteData
  | .regionOutside _ _ => .incompleteData
  | .jumpPastEnd _ _ => .incompleteData
  | .unreadBits _ => .incompleteData
  | .nothingToBind _ => .label
  | .undefinedLabel _ => .label
  | .labelWithoutValue _ => .label
  | .nothingToMatch _ => .label
  | .markerNotFound _ => .markerNotFound
  | .jumpBeforeStart _ => .jumpRange
  | .jumpBeforeCursor _ _ => .jumpRange
  | .jumpMismatch _ _ _ => .jumpRange
  | .partialBytes _ => .alignment
  | .openEndedSwap => .alignment
  | .unaligned _ _ => .alignment
  | .unpaddable _ _ _ => .alignment
  | .noInput => .underflow
  | .field _ => .codec
  | .stepLimit _ => .stepLimit
  | .sizeLimit _ => .sizeLimit

/-! ## Wording -/

/-- The name of a step that needs a byte boundary. -/
def alignedStep : AlignedStep → String
  | .takeAll => "take-all"
  | .markerScan => "marker scan"

/-- A place where a marker was found, if it was. -/
def showPlace : Option Nat → String
  | none => "None"
  | some position => "Some(" ++ toString position ++ ")"

/-- A label's name between plain quotes. -/
def labelName (name : String) : String :=
  "\"" ++ name ++ "\""

/-- The wording of a fault without its family. -/
def detail : Fault → String
  | .closeWithoutOpen => "`]` without a matching `[`"
  | .leftOpen count => toString count ++ " `[` left open"
  | .unusedInput count => toString count ++ " input values were not consumed"
  | .shapeMismatch input produced =>
    "input has shape " ++ Text.quoted input ++ " but the pattern produced " ++ Text.quoted produced
  | .writtenAfterRest bits =>
    toString bits ++ " bits written after a field that runs to the end of the data"
  | .notConstant bit bits =>
    "expected " ++ toString bits.length ++ (if bit then " one" else " zero") ++ " bits, found " ++ bits.toDigits
  | .labelMismatch found name expected =>
    "value " ++ found.compact ++ " does not match label " ++ labelName name ++ " = " ++ expected.compact
  | .assertionMismatch expected found => "expected " ++ expected.text ++ ", found " ++ found.compact
  | .assertionWithoutValue expected => "expected " ++ expected.text ++ ", but no value has been produced"
  | .markerReadBack bytes found => "marker " ++ Hex.ofBytes bytes ++ " read back as " ++ found.compact
  | .markerElsewhere bytes found expected =>
    "marker " ++ Hex.ofBytes bytes ++ " would be found at " ++ showPlace found ++ " instead of bit "
      ++ toString expected
  | .seekOutside target length =>
    "seek to bit " ++ toString target ++ " outside the " ++ toString length ++ "-bit buffer"
  | .tooFewBits width position available =>
    "needed " ++ toString width ++ " bits at bit " ++ toString position ++ ", only " ++ toString available
      ++ " available"
  | .regionOutside transform length =>
    transform.text ++ " does not fit the " ++ toString length ++ "-bit buffer"
  | .jumpPastEnd target length =>
    "jump target " ++ toString target ++ " lies past the end of the " ++ toString length ++ "-bit buffer"
  | .unreadBits count => toString count ++ " unread bits remain"
  | .nothingToBind name => "cannot bind " ++ labelName name ++ " before any value"
  | .undefinedLabel name => "label " ++ labelName name ++ " is not defined"
  | .labelWithoutValue name => "label " ++ labelName name ++ " has no value"
  | .nothingToMatch name => "nothing to match against label " ++ labelName name
  | .markerNotFound bytes => Hex.ofBytes bytes
  | .jumpBeforeStart bits => "target lies " ++ toString bits ++ " bits before the start"
  | .jumpBeforeCursor target position =>
    "target " ++ toString target ++ " lies before the cursor at bit " ++ toString position
  | .jumpMismatch gap expected target =>
    "a gap of " ++ toString gap ++ " bits ends at bit " ++ toString expected ++ ", but the jump lands on bit "
      ++ toString target
  | .partialBytes width => "endian swap of " ++ toString width ++ " bits is not a whole number of bytes"
  | .openEndedSwap => "endian swap needs a fixed width"
  | .unaligned step position =>
    alignedStep step ++ " needs a byte-aligned cursor, cursor is at bit " ++ toString position
  | .unpaddable value stop padding =>
    value.compact ++ " ends at bit " ++ toString stop ++ ", and " ++ toString padding
      ++ " bits of padding before the byte boundary would change it"
  | .noInput => "no value left to encode"
  | .field error => error.message
  | .stepLimit limit => toString limit
  | .sizeLimit limit => toString limit

/-- The wording of a fault. -/
def message (fault : Fault) : String :=
  match fault.family with
  | .structural => "structural error: " ++ fault.detail
  | .dataMismatch => "data mismatch: " ++ fault.detail
  | .incompleteData => "incomplete data: " ++ fault.detail
  | .label => "label error: " ++ fault.detail
  | .markerNotFound => "marker " ++ fault.detail ++ " not found before the end of data"
  | .jumpRange => "jump out of range: " ++ fault.detail
  | .alignment => "alignment error: " ++ fault.detail
  | .underflow => "input exhausted: " ++ fault.detail
  | .codec => "codec error: " ++ fault.detail
  | .stepLimit => "step limit of " ++ fault.detail ++ " exceeded"
  | .sizeLimit => "size limit of " ++ fault.detail ++ " bits exceeded"

end Fault

/-! ## Errors -/

/-- The place where a fault arose. -/
structure Context where
  /-- The index and the token of the instruction; none at the end of a run. -/
  current : Option (Nat × String)
  /-- The flat index of the next value. -/
  flatIndex : Nat
  /-- The path of the next value. -/
  path : List Nat
deriving DecidableEq

/-- The wording of a place. -/
def Context.message (context : Context) : String :=
  let place := match context.current with
    | some (step, token) => "at `" ++ token ++ "` (step " ++ toString step ++ ", "
    | none => "at end of run ("
  place ++ "value " ++ toString context.flatIndex ++ ", path " ++ Shape.showPath context.path ++ ")"

/-- A failed run. -/
structure RunError where
  fault : Fault
  context : Context

/-- The wording of a failed run. -/
def RunError.message (error : RunError) : String :=
  error.fault.message ++ " " ++ error.context.message

end BitTemplate
