import BitTemplate.Command.Host
import BitTemplate.Command.Request
import BitTemplate.Text.Blank
import BitTemplate.Text.Hex
import BitTemplate.Text.Quoted
import BitTemplate.Text.Utf8
import BitTemplate.Value.Json

/-!
Inputs of commands: a pattern, data or values, each from the command line, a file or the standard input.
-/

namespace BitTemplate.Command

/-- What is wrong with an input. -/
inductive InputError where
  | noPattern
  | noData
  | noValues
  /-- The standard input is asked for twice. -/
  | sharedInput
  | unreadable (path : String) (fault : HostFault)
  | notHex (text : String)
  | notValues (text : String) (error : Value.InputError)

/-- The wording of an error in an input. -/
def InputError.message : InputError → String
  | .noPattern => "pattern is required: use a positional argument or -p/--pattern"
  | .noData => "input is required: use a positional argument or -x/--hex"
  | .noValues => "values are required: use a positional argument or -j/--json"
  | .sharedInput => "pattern and input cannot both be read from stdin"
  | .unreadable path fault => "failed to read '" ++ path ++ "': " ++ fault.message
  | .notHex text => "invalid hex input " ++ Text.quoted text
  | .notValues text error => error.message text

/-! ## Texts -/

/-- A text of digits without the mark of hexadecimal numbers. -/
def dropHexMark : List Char → List Char
  | '0' :: 'x' :: digits => digits
  | '0' :: 'X' :: digits => digits
  | digits => digits

/-- The bytes of hexadecimal text: blanks are skipped, and the mark of hexadecimal numbers may stand before the
digits. -/
def hexData (text : String) : Except InputError (List UInt8) :=
  match Hex.pairs? (dropHexMark (Text.dropBlanks text)) with
  | some bytes => .ok bytes
  | none => .error (.notHex text)

/-- The values of JSON text. -/
def jsonValues (text : String) : Except InputError (List Value) :=
  (Value.parseList text).mapError (.notValues text)

/-! ## Files -/

variable {m : Type → Type} [Monad m]

/-- The bytes at a path. -/
def readPath (host : Host m) (path : String) : ExceptT InputError m (List UInt8) := do
  match ← (if path = "-" then host.readInput else host.readFile path) with
  | .ok bytes => return bytes
  | .error fault => throw (.unreadable path fault)

/-- The text of a pattern. -/
def readPattern (host : Host m) (origin : Origin) : ExceptT InputError m String :=
  match origin with
  | ⟨some text, _⟩ => return text
  | ⟨none, some path⟩ => return String.ofList (Text.ofUtf8 (← readPath host path))
  | ⟨none, none⟩ => throw .noPattern

/-- An input: its text as `ofText` reads it, or the bytes at its path as `ofBytes` reads them. The standard input is
not read for it if the pattern's path asks for it too. -/
def readInput {α : Type} (host : Host m) (patternPath : Option String) (origin : Origin) (missing : InputError)
    (ofText : String → Except InputError α) (ofBytes : List UInt8 → Except InputError α) :
    ExceptT InputError m α :=
  match origin with
  | ⟨some text, _⟩ => liftExcept (ofText text)
  | ⟨none, some path⟩ => do
    if path = "-" ∧ patternPath = some "-" then throw .sharedInput
    liftExcept (ofBytes (← readPath host path))
  | ⟨none, none⟩ => throw missing
where
  /-- An answer as a step without effects. -/
  liftExcept : Except InputError α → ExceptT InputError m α := fun answer => ExceptT.mk (pure answer)

/-- The data of a request. -/
def readData (host : Host m) (request : Request) : ExceptT InputError m (List UInt8) :=
  readInput host request.pattern.path request.input .noData hexData .ok

/-- The values of a request. -/
def readValues (host : Host m) (request : Request) : ExceptT InputError m (List Value) :=
  readInput host request.pattern.path request.input .noValues jsonValues
    fun bytes => jsonValues (String.ofList (Text.ofUtf8 bytes))

end BitTemplate.Command
