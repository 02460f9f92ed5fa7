import BitTemplate.Double.Style
import BitTemplate.Palette
import BitTemplate.Text.Hex
import BitTemplate.Value

/-!
Values as JSON text. One writer walks the value; a layout says how numbers and strings are spelled, how brackets and
commas are colored and where lines break. Byte strings are written as their hexadecimal digits.
-/

namespace BitTemplate.Value

/-! ## Writer -/

/-- The choices of a rendering. -/
structure Layout where
  float : Double → String
  string : String → String
  opening : String
  closing : String
  comma : String
  /-- What starts the line of an item at a nesting depth. -/
  line : Nat → String

mutual

/-- The text of a value at a nesting depth. -/
def write (layout : Layout) (depth : Nat) : Value → String
  | .uint n => toString n.toNat
  | .sint n => toString n.toInt
  | .float x => layout.float x
  | .hex digits => layout.string digits
  | .bin digits => layout.string digits
  | .bytes content => layout.string (Hex.ofBytes content)
  | .text content => layout.string content
  | .list [] => layout.opening ++ layout.closing
  | .list (item :: rest) =>
    layout.opening ++ layout.line (depth + 1) ++ write layout (depth + 1) item
      ++ writeRest layout (depth + 1) rest ++ layout.line depth ++ layout.closing

/-- The text of the items after the first one. -/
def writeRest (layout : Layout) (depth : Nat) : List Value → String
  | [] => ""
  | item :: rest => layout.comma ++ layout.line depth ++ write layout depth item ++ writeRest layout depth rest

end

/-! ## Strings -/

/-- An escape of four hexadecimal digits. -/
def unicodeEscape (c : Char) : String :=
  let digits := Nat.toDigits 16 c.toNat
  "\\u" ++ String.ofList (List.replicate (4 - digits.length) '0' ++ digits)

/-- Whether a character is a control of the first or the second block. -/
def isControl (c : Char) : Bool :=
  c.toNat < 0x20 || (0x7f ≤ c.toNat && c.toNat < 0xa0)

theorem toNat_lt_of_isControl {c : Char} (control : isControl c = true) : c.toNat < 0xa0 := by
  simp only [isControl, Bool.or_eq_true, Bool.and_eq_true, decide_eq_true_eq] at control
  omega

/-- A character of a printed string: every control without a letter of its own is written by its code. -/
def escapeShown (c : Char) : String :=
  if c = '"' then "\\\""
  else if c = '\\' then "\\\\"
  else if c = '\n' then "\\n"
  else if c = '\r' then "\\r"
  else if c = '\t' then "\\t"
  else if isControl c then unicodeEscape c
  else c.toString

/-- A character of an interchanged string: only the controls below the space are written by letter or code. -/
def escapePlain (c : Char) : String :=
  if c = '"' then "\\\""
  else if c = '\\' then "\\\\"
  else if c = '\n' then "\\n"
  else if c = '\r' then "\\r"
  else if c = '\t' then "\\t"
  else if c = '\x08' then "\\b"
  else if c = '\x0c' then "\\f"
  else if c.toNat < 0x20 then unicodeEscape c
  else c.toString

/-- A string between double quotes. -/
def quote (escape : Char → String) (text : String) : String :=
  "\"" ++ String.join (text.toList.map escape) ++ "\""

/-! ## Numbers -/

/-- Printed numbers never have an exponent part, and whole numbers below `10 ^ 16` end in a point and a zero. -/
def shownFloat : Double.Style where
  tie := .up
  isPositional := fun _ => true
  keepsPoint := fun leading => decide (leading < 16)
  plus := ""
  notFinite := fun _ => "null"

/-- Interchanged numbers have an exponent part with a sign below `10 ^ -5` and from `10 ^ 16` on. -/
def plainFloat : Double.Style where
  tie := .toEven
  isPositional := fun leading => decide (-5 ≤ leading ∧ leading < 16)
  keepsPoint := fun _ => true
  plus := "+"
  notFinite := fun _ => "null"

/-! ## Layouts -/

/-- The printed form, on one line or with one item a line and two spaces a level. -/
def shown (palette : Palette) (pretty : Bool) : Layout where
  float := shownFloat.write
  string := fun text => palette.literal (quote escapeShown text)
  opening := palette.faint "["
  closing := palette.faint "]"
  comma := palette.faint ","
  line := fun depth => if pretty then "\n" ++ String.ofList (List.replicate (2 * depth) ' ') else ""

/-- The interchange form. -/
def plainLayout : Layout where
  float := plainFloat.write
  string := quote escapePlain
  opening := "["
  closing := "]"
  comma := ","
  line := fun _ => ""

/-- The printed form of a value. -/
def format (value : Value) (pretty : Bool) (palette : Palette) : String :=
  value.write (shown palette pretty) 0

/-- The printed form on one line without colors, as messages show it. -/
def compact (value : Value) : String :=
  value.format false Palette.plain

/-- The interchange form of a value. -/
def toJson (value : Value) : String :=
  value.write plainLayout 0

end BitTemplate.Value
