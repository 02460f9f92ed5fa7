import BitTemplate.Palette
import BitTemplate.Program.Directive
import BitTemplate.Text.Quoted
import BitTemplate.Value.Printer

/-!
Listings of programs: one line for each instruction, with its index, its token, its mnemonic and its operands.
-/

namespace BitTemplate

/-! ## Operands -/

/-- Constants keep the point of whole numbers and have an exponent part below `10 ^ -4` and from `10 ^ 16` on. -/
def literalFloat : Double.Style where
  tie := .up
  isPositional := fun leading => decide (-4 ≤ leading ∧ leading < 16)
  keepsPoint := fun _ => true
  plus := ""
  notFinite := fun x => if x.isNaN then "NaN" else if x.isNegative then "-inf" else "inf"

/-- The text of a constant. -/
def Literal.text : Literal → String
  | .int n => toString n.toInt
  | .float x => literalFloat.write x
  | .str content => Text.quoted content

/-- The name of a change at the cursor. -/
def CursorChange.name : CursorChange → String
  | .reverse => "reverse"
  | .invert => "invert"
  | .endianSwap => "endian-swap"

/-- The name of a change at a distance. -/
def OffsetChange.name : OffsetChange → String
  | .reverse => "reverse"
  | .invert => "invert"
  | .pull => "pull"

/-- The name of a flag. -/
def Flag.name : Flag → String
  | .reverseAll => "reverse-all"
  | .invertAll => "invert-all"
  | .endianSwapAll => "endian-swap-all"

/-- The name of a setting. -/
def Setting.name : Setting → String
  | .set => "set"
  | .clear => "clear"
  | .toggle => "toggle"

/-- The name of a jump's origin. -/
def JumpOrigin.name : JumpOrigin → String
  | .start => "start"
  | .forward => "forward"
  | .backward => "backward"
  | .stop => "end"

/-! ## Directives -/

/-- The mnemonic of an action on the record. -/
def Control.mnemonic : Control → String
  | .setFlag _ _ => "MODSET"
  | .setLabel _ => "SETLABEL"
  | .defLabel _ _ => "DEFLABEL"
  | .matchLabel _ => "MATCHLABEL"
  | .nestOpen => "NESTOPEN"
  | .nestClose => "NESTCLOSE"
  | .assertion _ => "ASSERTION"

/-- The mnemonic of a directive. -/
def Directive.mnemonic : Directive → String
  | .value _ _ => "VALUE"
  | .next _ => "NEXT"
  | .constant bit _ => if bit then "ONES" else "ZEROS"
  | .mod _ _ => "MOD"
  | .modOff _ _ _ => "MODOFF"
  | .takeAll _ => "TAKEALL"
  | .jump _ _ => "JUMP"
  | .marker last _ => if last then "MARKEREND" else "MARKERSTART"
  | .control action => action.mnemonic

/-- The operands of an action on the record. -/
def Control.operands (palette : Palette) : Control → String
  | .setFlag flag setting => flag.name ++ " " ++ setting.name
  | .setLabel name => palette.literal (Text.quoted name)
  | .defLabel name none => palette.literal (Text.quoted name)
  | .defLabel name (some value) => palette.literal (Text.quoted name) ++ " = " ++ palette.literal value.text
  | .matchLabel name => palette.literal (Text.quoted name)
  | .nestOpen => ""
  | .nestClose => ""
  | .assertion expected => palette.literal expected.text

/-- The operands of a directive. -/
def Directive.operands (palette : Palette) : Directive → String
  | .value encoding width => encoding.name ++ " " ++ width.text
  | .next width => toString width
  | .constant _ width => toString width
  | .mod change width => change.name ++ " " ++ width.text
  | .modOff change offset width => change.name ++ " +" ++ toString offset ++ " " ++ width.text
  | .takeAll encoding => encoding.name
  | .jump origin bits => origin.name ++ " " ++ toString bits
  | .marker _ bytes => palette.literal (Hex.ofBytes bytes)
  | .control action => action.operands palette

/-- The mnemonic of a directive and its operands, if it has any. -/
def Directive.text (palette : Palette) (directive : Directive) : String :=
  let operands := directive.operands palette
  palette.mnemonic directive.mnemonic ++ if operands.isEmpty then "" else " " ++ operands

/-! ## Lines -/

/-- The columns that the indices of `count` instructions take. -/
def indexColumns (count : Nat) : Nat :=
  (Nat.toDigits 10 (count - 1)).length

/-- A number with blanks on its left up to a number of columns. -/
def rightAligned (columns n : Nat) : String :=
  let digits := Nat.toDigits 10 n
  String.ofList (List.replicate (columns - digits.length) ' ' ++ digits)

/-- A text with blanks on its right up to a number of characters. -/
def leftAligned (columns : Nat) (text : String) : String :=
  text ++ String.ofList (List.replicate (columns - text.length) ' ')

namespace Program

/-- The length of the longest token. -/
def tokenColumns (program : Program) : Nat :=
  program.instructions.foldl (fun columns instruction => max columns instruction.token.length) 0

/-- The line of one instruction. -/
def line (palette : Palette) (indexWidth tokenWidth index : Nat) (instruction : Instruction) : String :=
  rightAligned indexWidth index ++ "  " ++ palette.faint (leftAligned tokenWidth instruction.token)
    ++ "  " ++ instruction.directive.text palette ++ "\n"

/-- The listing of a program. -/
def listing (program : Program) (palette : Palette) : String :=
  let indexWidth := indexColumns program.size
  let tokenWidth := program.tokenColumns
  String.join (program.instructions.mapIdx (line palette indexWidth tokenWidth))

end Program

end BitTemplate
