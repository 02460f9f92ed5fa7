import BitTemplate.Diagnostic.Window
import BitTemplate.Pattern.Token
import BitTemplate.Text.Blank
import BitTemplate.Text.Lines

/-!
The lines of a source that a diagnostic shows, with what is drawn at each. A span on one line is underlined. A longer
span has a lane beside the source that opens at its first line and closes at its last; of the lines between, the first
few and the last but one are shown unless they are bare.
-/

namespace BitTemplate.Diagnostic

/-! ## Places -/

/-- A line, counted from one, and a column in it. -/
structure Place where
  line : Nat
  column : Nat
  /-- Whether the place lies after the text of its line, in or behind the characters that end it. -/
  isPastText : Bool
deriving DecidableEq, Repr

/-- The place of a byte in lines that are counted from `number`. A byte after the last line belongs to its end. -/
def placeFrom (number : Nat) (offset : Nat) : List Text.Line → Place
  | [] => ⟨number, 0, false⟩
  | line :: rest =>
    let size := Text.utf8Length line.chars
    if offset < size ∨ rest.isEmpty then
      ⟨number, textColumns (takeBytes offset line.text), Text.utf8Length line.text < offset⟩
    else placeFrom (number + 1) (offset - size) rest

/-- The lines of a source; an empty source has one empty line. -/
def sourceLines (source : List Char) : List Text.Line :=
  if source.isEmpty then [⟨[], []⟩] else Text.lines source

/-- The text of a line, counted from one. -/
def lineText (lines : List Text.Line) (number : Nat) : List Char :=
  ((lines[number - 1]?).map Text.Line.text).getD []

/-! ## Bare lines -/

/-- A text without the blanks around it. -/
def trimmed (text : List Char) : List Char :=
  (((text.dropWhile Text.isBlank).reverse).dropWhile Text.isBlank).reverse

/-- Whether a line holds nothing but blanks, one bracket or a remark. -/
def isBare (text : List Char) : Bool :=
  match trimmed text with
  | [] => true
  | [c] => ['(', ')', '[', ']', '\x7b', '\x7d'].contains c
  | '/' :: '/' :: c :: _ => c ≠ '/' && c ≠ '!'
  | ['/', '/'] => true
  | _ => false

/-! ## Marks -/

/-- What is drawn at a line. -/
inductive Mark where
  /-- An underline from a column up to another. -/
  | underline (start stop : Nat)
  /-- The lane opens at a column. -/
  | opens (column : Nat)
  /-- The lane runs past. -/
  | runs
  /-- The lane closes before a column. -/
  | closes (column : Nat)
deriving DecidableEq, Repr

/-- The first column that a mark reaches and the column after it. -/
def Mark.reach : Mark → Nat × Nat
  | .underline start stop => (start, stop)
  | .opens column => (column, column + 1)
  | .runs => (0, 0)
  | .closes column => (column - 1, column)

/-- Whether the label stands at a mark. -/
def Mark.hasLabel : Mark → Bool
  | .underline _ _ => true
  | .closes _ => true
  | _ => false

/-- A line and what is drawn at it. -/
structure MarkedLine where
  number : Nat
  text : List Char
  mark : Mark
deriving DecidableEq, Repr

/-- The lines between the first and the last line of a span that are shown. -/
def linesBetween (lines : List Text.Line) (start stop : Nat) : List Nat :=
  let middle := min (start + 4) stop
  let near := (List.range' start (middle - start)).filter fun n => !isBare (lineText lines n)
  let last := near.getLast?.getD start
  let tail := if middle < stop - 1 ∧ ¬isBare (lineText lines (stop - 1)) then [stop - 1] else []
  List.range' (start + 1) (last - start) ++ tail

/-- The lines that are shown for a span, in order. A span without columns is drawn one column wide, and the lane of a
span that takes in the end of its last line closes one column after the text. -/
def markedLines (lines : List Text.Line) (span : Span) : List MarkedLine :=
  let start := placeFrom 1 span.start lines
  let stop := placeFrom 1 span.stop lines
  let marked (number : Nat) (mark : Mark) : MarkedLine := ⟨number, lineText lines number, mark⟩
  if start.line = stop.line then
    [marked start.line (.underline start.column (if start.column = stop.column then stop.column + 1 else stop.column))]
  else
    marked start.line (.opens start.column) :: (linesBetween lines start.line stop.line).map (marked · .runs)
      ++ [marked stop.line (.closes (if stop.isPastText then stop.column + 1 else stop.column))]

/-! ## Extent -/

/-- Whether a character may be cut off at the start of a line: the white space of patterns by the Unicode property of
that name, which is the blanks of ASCII and a few separators and marks. -/
def isIndent (c : Char) : Bool :=
  let code := c.toNat
  (0x9 ≤ code && code ≤ 0xd) || code == 0x20 || code == 0x85 || code == 0x200e || code == 0x200f || code == 0x2028
    || code == 0x2029

/-- The columns of the indent that a line starts with. -/
def indentOf (text : List Char) : Nat :=
  (text.takeWhile isIndent).foldl (fun columns c => columns + if c = '\t' then 4 else 1) 0

/-- The extent of some lines with a label. -/
def extentOf (label : List Char) (shown : List MarkedLine) : Extent :=
  let indents := (shown.filter fun line => !line.text.all isIndent).map (indentOf ·.text)
  let labelStop (line : MarkedLine) : Nat :=
    line.mark.reach.2 + if line.mark.hasLabel then textColumns label + 1 else 0
  { indent := indents.min?.getD 0
    spanStart := ((shown.map fun line => min line.mark.reach.1 line.mark.reach.2).min?).getD 0
    spanStop := ((shown.map fun line => max line.mark.reach.1 line.mark.reach.2).max?).getD 0
    labelStop := ((shown.map labelStop).max?).getD 0
    longest := ((shown.map (textColumns ·.text)).max?).getD 0 }

end BitTemplate.Diagnostic
