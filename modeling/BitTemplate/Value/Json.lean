import BitTemplate.Json.Reader
import BitTemplate.Value

/-!
Values from JSON. A natural number is unsigned, a negative integer is signed, any other number is floating-point, a
string is a text and a list is a record. Nothing else is a value.
-/

namespace BitTemplate.Value

/-- Why a document is no list of values. -/
inductive InputError where
  | malformed (error : Json.Error)
  | notList
  | noValue (kind : String)
deriving DecidableEq

/-- The message of an input error in a text. -/
def InputError.message (text : String) : InputError → String
  | .malformed error => "invalid JSON: " ++ error.message text
  | .notList => "values must be a JSON array"
  | .noValue kind => "cannot convert JSON " ++ kind ++ " to a value"

mutual

/-- The value of a document. -/
def ofJson : Json → Except InputError Value
  | .natural n => .ok (.uint (BitVec.ofNat 128 n))
  | .negative n => .ok (.sint (BitVec.ofInt 128 n))
  | .real x => .ok (.float x)
  | .string content => .ok (.text content)
  | .array items => do return .list (← ofJsonItems items)
  | .null => .error (.noValue "null")
  | .bool _ => .error (.noValue "boolean")
  | .object _ => .error (.noValue "object")

/-- The values of the items of a list. -/
def ofJsonItems : List Json → Except InputError (List Value)
  | [] => .ok []
  | item :: rest => do
    let value ← ofJson item
    let values ← ofJsonItems rest
    return value :: values

end

/-- The values that a text lists. -/
def parseList (text : String) : Except InputError (List Value) :=
  match Json.parse text with
  | .error error => .error (.malformed error)
  | .ok (.array items) => ofJsonItems items
  | .ok _ => .error .notList

end BitTemplate.Value
