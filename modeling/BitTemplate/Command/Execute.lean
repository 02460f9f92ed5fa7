import BitTemplate.Command.Input
import BitTemplate.Pattern.Compile
import BitTemplate.Pattern.Diagnostic
import BitTemplate.Run.Decoder
import BitTemplate.Run.Encoder
import BitTemplate.Value.Printer

/-!
Execution of requests. A command ends with an exit code and the texts of both outputs: a wrong input or pattern ends
with one, a run that fails ends with two.
-/

namespace BitTemplate.Command

/-- The end of a command. -/
structure Outcome where
  code : UInt8
  output : String
  errors : String
deriving DecidableEq, Repr

namespace Outcome

/-- The end of a command that succeeds. -/
def success (output : String) : Outcome := ⟨0, output, ""⟩

/-- The end of a command with wrong inputs. -/
def refusal (message : String) : Outcome := ⟨1, "", "error: " ++ message ++ "\n"⟩

/-- The end of a command whose run fails after some output. -/
def failure (output : String) (error : RunError) : Outcome :=
  ⟨2, output, "runtime error: " ++ error.message ++ "\n"⟩

end Outcome

/-- Which outputs are terminals. -/
structure Terminal where
  output : Bool
  errors : Bool
deriving DecidableEq, Repr

/-- Whether a choice means colors. -/
def ColorChoice.isOn (choice : ColorChoice) (terminal : Terminal) : Bool :=
  match choice with
  | .always => true
  | .never => false
  | .auto => terminal.output && terminal.errors

namespace Request

/-- The limits of a request. -/
def limits (request : Request) : Limits :=
  { Limits.standard with maxSteps := request.maxSteps }

/-- The program of a pattern, or the end of the command with its diagnostic. -/
def compile (pattern : String) (color : Bool) : Except Outcome Program :=
  (Pattern.compile pattern).mapError fun error => ⟨1, "", error.diagnostic pattern color⟩

/-- Values on lines of their own or on one line. -/
def showValues (values : List Value) (pretty color : Bool) : String :=
  (Value.list values).format pretty (.select color) ++ "\n"

/-- The end of a decoding. -/
def decode (request : Request) (program : Program) (data : List UInt8) (pretty color : Bool) : Outcome :=
  match (Decoder.ofBytes data request.limits request.checkEnd []).decode program with
  | .ok values => .success (showValues values pretty color)
  | .error error => .failure "" error

/-- The end of a decoding with its trace. -/
def trace (request : Request) (program : Program) (data : List UInt8) (color : Bool) : Outcome :=
  let (failure, decoder) := (Decoder.ofBytes data request.limits request.checkEnd []).run program
  let style := TraceStyle.ofProgram program request.verbosity color
  let lines := String.join ((style.lines decoder.engine).map (· ++ "\n"))
  let result : Except RunError (List Value) := match failure with
    | some error => .error error
    | none => decoder.finish
  match result with
  | .error error => .failure lines error
  | .ok values =>
    if request.showResult then
      .success (lines ++ style.palette.faint "---" ++ "\n" ++ showValues values true color)
    else .success lines

/-- The end of a listing. -/
def dump (pattern : String) (color : Bool) : Outcome :=
  if Text.isBlankText pattern then .refusal "pattern cannot be empty"
  else
    match compile pattern color with
    | .ok program => .success (program.listing (.select color))
    | .error outcome => outcome

variable {m : Type → Type} [Monad m]

/-- The end of an encoding: the bytes go to a file, or their digits to the output. -/
def encode (host : Host m) (request : Request) (program : Program) (values : List Value) : m Outcome := do
  match (Encoder.ofValues values request.limits []).encode program with
  | .error error => return .failure "" error
  | .ok bytes =>
    match request.output with
    | none => return .success (Hex.ofBytes bytes ++ "\n")
    | some path =>
      match ← host.writeFile path bytes with
      | .ok () => return .success ""
      | .error fault => return .refusal ("failed to write '" ++ path ++ "': " ++ fault.message)

/-- Executes a request with its pattern. -/
def executeWith (host : Host m) (terminal : Terminal) (request : Request) (pattern : String) :
    ExceptT InputError m Outcome := do
  let color := request.color.isOn terminal
  match request.task with
  | .dump => return dump pattern color
  | .encode =>
    let values ← readValues host request
    match compile pattern color with
    | .ok program => ExceptT.lift (encode host request program values)
    | .error outcome => return outcome
  | .decode =>
    let data ← readData host request
    match compile pattern color with
    | .ok program => return decode request program data (!request.compact && terminal.output) color
    | .error outcome => return outcome
  | .trace =>
    let data ← readData host request
    match compile pattern color with
    | .ok program => return trace request program data color
    | .error outcome => return outcome

/-- Executes a request. -/
def execute (host : Host m) (terminal : Terminal) (request : Request) : m Outcome := do
  match ← (readPattern host request.pattern >>= executeWith host terminal request).run with
  | .ok outcome => return outcome
  | .error error => return .refusal error.message

end Request

end BitTemplate.Command
