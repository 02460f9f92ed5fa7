/-!
Arguments of the command line. The first one names a task; the others are options and positional arguments. The value of
an option is the next argument or is attached to the option. Short options that take no value may share one hyphen, and
after two hyphens everything is positional.
-/

namespace BitTemplate.Command

/-- What the program is asked to do. -/
inductive Task where
  /-- Read values from data. -/
  | decode
  /-- Write values as data. -/
  | encode
  /-- List the instructions of a pattern. -/
  | dump
  /-- Read values from data and show every step. -/
  | trace
deriving DecidableEq, Repr

/-- The task of a name. -/
def Task.ofName? : String → Option Task
  | "decode" => some .decode
  | "encode" => some .encode
  | "dump" => some .dump
  | "trace" => some .trace
  | _ => none

/-! ## Parameters -/

/-- What the options of all tasks set. -/
inductive Parameter where
  /-- The text of the pattern. -/
  | pattern
  /-- The data in hexadecimal. -/
  | hex
  /-- The values as JSON. -/
  | json
  /-- The file for the encoded bytes. -/
  | output
  /-- The limit of instructions. -/
  | maxSteps
  /-- When to use colors. -/
  | color
  /-- Accept data that is left over. -/
  | noEndCheck
  /-- Write values on one line. -/
  | compact
  /-- Show more of a trace. -/
  | verbose
  /-- Leave out the values after a trace. -/
  | noResult
deriving DecidableEq, Repr

namespace Parameter

/-- The parameter of a long name. -/
def ofName? : String → Option Parameter
  | "pattern" => some .pattern
  | "hex" => some .hex
  | "json" => some .json
  | "output" => some .output
  | "max-steps" => some .maxSteps
  | "color" => some .color
  | "no-eof-check" => some .noEndCheck
  | "compact" => some .compact
  | "no-result" => some .noResult
  | _ => none

/-- The parameter of a letter. -/
def ofLetter? : Char → Option Parameter
  | 'p' => some .pattern
  | 'x' => some .hex
  | 'j' => some .json
  | 'o' => some .output
  | 'v' => some .verbose
  | _ => none

/-- Whether a parameter has a value. -/
def takesValue : Parameter → Bool
  | .pattern | .hex | .json | .output | .maxSteps | .color => true
  | .noEndCheck | .compact | .verbose | .noResult => false

/-- Whether a parameter may be given more than once. -/
def mayRepeat (parameter : Parameter) : Bool :=
  parameter = .verbose

end Parameter

/-- Whether a task knows an option. The tasks that read data know each other's options, and the listing knows all of
them; an option without a meaning for the task is ignored. -/
def Task.accepts (task : Task) (parameter : Parameter) : Bool :=
  match parameter with
  | .pattern | .maxSteps | .color => true
  | .json | .output => task = .encode
  | .hex | .noEndCheck | .compact | .verbose | .noResult => task ≠ .encode

/-! ## Items -/

/-- A part of the arguments. -/
inductive Item where
  | positional (text : String)
  | flag (parameter : Parameter)
  | valued (parameter : Parameter) (text : String)
deriving DecidableEq, Repr

/-- The items of one argument, and the option that has its value in the next one. -/
structure Reading where
  items : List Item
  open? : Option Parameter
deriving DecidableEq, Repr

/-- A value that is attached to a letter; an equals sign before it does not belong to it. -/
def attached : List Char → String
  | '=' :: text => String.ofList text
  | text => String.ofList text

/-- Reads the letters after one hyphen. -/
def readLetters (task : Task) : List Char → Option Reading
  | [] => some ⟨[], none⟩
  | letter :: rest => do
    let parameter ← (Parameter.ofLetter? letter).filter task.accepts
    if parameter.takesValue then
      if rest.isEmpty then return ⟨[], some parameter⟩
      else return ⟨[.valued parameter (attached rest)], none⟩
    else
      let reading ← readLetters task rest
      return { reading with items := .flag parameter :: reading.items }

/-- Reads what follows two hyphens: a name, or a name and a value with an equals sign between them. -/
def readName (task : Task) (text : List Char) : Option Reading := do
  let name := String.ofList (text.takeWhile (· ≠ '='))
  let parameter ← (Parameter.ofName? name).filter task.accepts
  match text.dropWhile (· ≠ '='), parameter.takesValue with
  | [], false => return ⟨[.flag parameter], none⟩
  | [], true => return ⟨[], some parameter⟩
  | _ :: value, true => return ⟨[.valued parameter (String.ofList value)], none⟩
  | _ :: _, false => none

/-- Reads one argument; a lone hyphen is positional. -/
def readArgument (task : Task) (argument : String) : Option Reading :=
  match argument.toList with
  | '-' :: '-' :: name => readName task name
  | '-' :: letter :: letters => readLetters task (letter :: letters)
  | _ => some ⟨[.positional argument], none⟩

/-- Whether an argument may be the value of the option before it: it is a lone hyphen or starts with none. -/
def isValue (argument : String) : Bool :=
  argument = "-" || !argument.startsWith "-"

/-- Reads the arguments of a task. -/
def readArguments (task : Task) : List String → Option (List Item)
  | [] => some []
  | argument :: rest =>
    if argument = "--" then some (rest.map .positional)
    else do
      let reading ← readArgument task argument
      match reading.open?, rest with
      | none, rest => return reading.items ++ (← readArguments task rest)
      | some parameter, value :: rest =>
        if isValue value then
          return reading.items ++ .valued parameter value :: (← readArguments task rest)
        else none
      | some _, [] => none

/-! ## Lookup -/

/-- The option of an item, if it has one. -/
def Item.parameter? : Item → Option Parameter
  | .positional _ => none
  | .flag parameter => some parameter
  | .valued parameter _ => some parameter

/-- Whether no option is repeated that may not be. -/
def noneRepeated (items : List Item) : Bool :=
  let parameters := (items.filterMap Item.parameter?).filter (!·.mayRepeat)
  parameters.eraseDups.length = parameters.length

/-- The positional arguments. -/
def positionals (items : List Item) : List String :=
  items.filterMap fun
    | .positional text => some text
    | _ => none

/-- The value of an option. -/
def value? (parameter : Parameter) (items : List Item) : Option String :=
  items.findSome? fun
    | .valued key text => if key = parameter then some text else none
    | _ => none

/-- How often an option without a value is given. -/
def countOf (parameter : Parameter) (items : List Item) : Nat :=
  items.count (.flag parameter)

end BitTemplate.Command
