import BitTemplate.Command.Arguments
import BitTemplate.Run.Trace

/-!
Requests to the program. A request says where the pattern and the input come from and how to run. Arguments that form no
request are a usage error.
-/

namespace BitTemplate.Command

/-- When to use colors. -/
inductive ColorChoice where
  /-- If both outputs are terminals. -/
  | auto
  | always
  | never
deriving DecidableEq, Repr

/-- The choice of a name. -/
def ColorChoice.ofName? : String → Option ColorChoice
  | "auto" => some .auto
  | "always" => some .always
  | "never" => some .never
  | _ => none

/-- Where a pattern or an input comes from: its text wins over the path of a file; a lone hyphen is the path of the
standard input. -/
structure Origin where
  text : Option String
  path : Option String
deriving DecidableEq, Repr

/-- A request. -/
structure Request where
  task : Task
  pattern : Origin
  /-- The data in hexadecimal or the values as JSON. -/
  input : Origin
  /-- The file for encoded bytes. -/
  output : Option String
  maxSteps : Nat
  checkEnd : Bool
  compact : Bool
  color : ColorChoice
  verbosity : Verbosity
  showResult : Bool
deriving DecidableEq, Repr

namespace Request

/-- The largest limit of instructions that can be asked for. -/
def maxMaxSteps : Nat := (1 <<< 64) - 1

/-- A number in decimal, with or without a plus sign. -/
def number? (text : String) : Option Nat :=
  let digits := match text.toList with
    | '+' :: rest => rest
    | all => all
  if digits.isEmpty ∨ ¬digits.all Char.isDigit then none
  else
    let n := digits.foldl (fun n c => 10 * n + (c.toNat - '0'.toNat)) 0
    if n ≤ maxMaxSteps then some n else none

/-- The verbosity of a trace by the number of times it is asked for. -/
def verbosityOf : Nat → Verbosity
  | 0 => .standard
  | 1 => .verbose
  | _ => .veryVerbose

/-- The paths of the pattern and the input. When the pattern is given as a text, a single path is that of the input; a
listing has no input. -/
def paths? (task : Task) (hasPatternText : Bool) : List String → Option (Option String × Option String)
  | [] => some (none, none)
  | [path] => some (if hasPatternText ∧ task ≠ .dump then (none, some path) else (some path, none))
  | [pattern, input] => some (some pattern, some input)
  | _ => none

/-- The request of some items. -/
def ofItems? (task : Task) (items : List Item) : Option Request := do
  guard (noneRepeated items)
  let pathTexts := positionals items
  let output := value? .output items
  guard ((pathTexts ++ output.toList).all (· ≠ ""))
  let maxSteps ← match value? .maxSteps items with
    | some text => number? text
    | none => some Limits.standard.maxSteps
  let color ← match value? .color items with
    | some name => ColorChoice.ofName? name
    | none => some .auto
  let patternText := value? .pattern items
  let (patternPath, inputPath) ← paths? task patternText.isSome pathTexts
  return {
    task
    pattern := ⟨patternText, patternPath⟩
    input := ⟨value? (if task = .encode then .json else .hex) items, inputPath⟩
    output
    maxSteps
    checkEnd := countOf .noEndCheck items = 0
    compact := countOf .compact items ≠ 0
    color
    verbosity := verbosityOf (countOf .verbose items)
    showResult := countOf .noResult items = 0 }

/-- The request of some arguments; without one, they are a usage error. -/
def ofArguments? : List String → Option Request
  | [] => none
  | name :: arguments => do
    let task ← Task.ofName? name
    ofItems? task (← readArguments task arguments)

end Request

end BitTemplate.Command
