import BitTemplate.Diagnostic.Excerpt
import BitTemplate.Diagnostic.Row
import BitTemplate.Text.Visible

/-!
The layout of a diagnostic: a title, then the source lines with their numbers, and below a line the underline of the
span and its label. From left to right stand the numbers, a bar, the lane of a span over several lines, and the source.
-/

namespace BitTemplate.Diagnostic

/-- The columns of a terminal. -/
def terminalColumns : Nat := 140

/-- The columns of the parts of a diagnostic. -/
structure Layout where
  /-- The columns of line numbers. -/
  numberColumns : Nat
  /-- Whether there is a lane. -/
  hasLane : Bool
  window : Window
deriving DecidableEq, Repr

namespace Layout

/-! ## Columns -/

/-- The column of the bar. -/
def bar (layout : Layout) : Nat := layout.numberColumns + 1

/-- The column of the lane. -/
def lane (layout : Layout) : Nat := layout.numberColumns + 3

/-- The column of the source for some columns of numbers, with or without a lane. -/
def sourceAt (numberColumns : Nat) (hasLane : Bool) : Nat :=
  numberColumns + if hasLane then 5 else 3

/-- The column of the source. -/
def source (layout : Layout) : Nat := sourceAt layout.numberColumns layout.hasLane

/-! ## Rows -/

/-- A row with nothing but the bar. -/
def barRow (layout : Layout) : Row :=
  Row.write [] layout.bar (inked .gutter ['|'])

/-- The number of a line, to the right of its columns. -/
def number (layout : Layout) (line : Nat) : Row :=
  let digits := (toString line).toList
  inked .gutter (List.replicate (layout.numberColumns - digits.length) ' ' ++ digits)

/-- The row of a source line and the columns of the line that are cut off before it. Dots stand over the first and the
last shown columns where something is cut off. -/
def sourceRow (layout : Layout) (line : Nat) (text : List Char) : Row × Nat :=
  let shown := Text.visible text
  let length := textColumns shown
  let left := min layout.window.left length
  let right := layout.window.rightOf length
  let (skipped, rest) := skipColumns left shown
  let code := takeColumns (right - left) rest
  let left := max left skipped
  let isCut := layout.window.left ≠ 0
  let (covered, code) := if isCut then skipColumns dots.length code else (0, code)
  let left := if isCut then left - (covered - dots.length) else left
  let uncovered := (skipColumns dots.length code.reverse).2.length
  let row : Row := layout.number line
  let row := row.write layout.bar (inked .gutter ['|'])
  let row := row.write layout.source (if isCut then dots else [])
  let row := row.write (layout.source + covered) (inked .plain code)
  (row.write (layout.source + covered + uncovered) (if right < length then dots else []), left)

/-- A row with the lane running past. -/
def addLane (layout : Layout) (row : Row) : Row :=
  row.write layout.lane (inked .mark ['|'])

/-- A row with a horizontal stroke from the lane up to a column, and a caret there. -/
def addStroke (layout : Layout) (corner : Char) (column : Nat) (row : Row) : Row :=
  row.write layout.lane
    (inked .mark (corner :: List.replicate (column - (layout.lane + 1)) '_'))
    |>.write column (inked .mark ['^'])

/-- A row with the label after a column of the source. -/
def addLabel (layout : Layout) (label : List Char) (stop left : Nat) (row : Row) : Row :=
  let gap := if stop = 0 then 2 else 1
  row.write (layout.source + (stop + gap - left)) (inked .mark label)

/-- The rows of a line with an underline. Of an underline twice as long as the terminal is wide, the middle is left
out. -/
def underlineRows (layout : Layout) (label : List Char) (line : MarkedLine) (start stop : Nat) : List Row :=
  let (row, left) := layout.sourceRow line.number line.text
  let below := layout.barRow.write (layout.source + start - left) (inked .mark (List.replicate (stop - start) '^'))
  let below := layout.addLabel label stop left below
  let length := stop - start
  if layout.window.room * 2 < length ∧ 10 < length then
    let kept := max (layout.window.room / 3) 5
    [row, below].map fun row =>
      row.shorten (layout.source + (start + kept) - left) (layout.source + (stop - kept) - left)
  else [row, below]

/-- The rows of a marked line. -/
def lineRows (layout : Layout) (label : List Char) (line : MarkedLine) : List Row :=
  let (row, left) := layout.sourceRow line.number line.text
  match line.mark with
  | .underline start stop => layout.underlineRows label line start stop
  | .opens column =>
    if ((Text.visible line.text).take column).all Text.isBlank then [row.write layout.lane (inked .mark ['/'])]
    else [row, layout.barRow |> layout.addStroke ' ' (layout.source + column - left)]
  | .runs => [layout.addLane row]
  | .closes stop =>
    [layout.addLane row,
      layout.barRow |> layout.addStroke '|' (layout.source + (stop - 1) - left) |> layout.addLabel label stop left]

/-- The rows between two marked lines: a single line is shown, more are left out. -/
def gapRows (layout : Layout) (lines : List Text.Line) (before after : Nat) : List Row :=
  if after = before + 2 then [layout.addLane (layout.sourceRow (before + 1) (lineText lines (before + 1))).1]
  else if before + 2 < after then [layout.addLane dots]
  else []

/-- The rows of marked lines. -/
def excerptRows (layout : Layout) (lines : List Text.Line) (label : List Char) : List MarkedLine → List Row
  | [] => []
  | [line] => layout.lineRows label line
  | line :: next :: rest =>
    layout.lineRows label line ++ layout.gapRows lines line.number next.number
      ++ excerptRows layout lines label (next :: rest)

end Layout

/-! ## Diagnostics -/

/-- The rows of a title. The lines after the first stand below the first one's text. -/
def titleRows (title : String) : List Row :=
  let level := "error".toList
  match (Text.lines (Text.visible title.toList)).map Text.Line.text with
  | [] => [inked .mark level ++ inked .title [':', ' ']]
  | first :: rest =>
    (inked .mark level ++ inked .title ([':', ' '] ++ first))
      :: rest.map fun line => blanks (level.length + 2) ++ inked .title line

/-- The columns of the largest line number up to the end of a span. -/
def numberColumns (source : List Char) (span : Span) : Nat :=
  (toString (max 1 (Text.lines (takeBytes span.stop source)).length)).length

/-- A span that can be seen: an empty one becomes the byte after it, unless that is past the end of the source. -/
def visibleSpan (span : Span) (length : Nat) : Span :=
  if span.start = span.stop then ⟨span.start, min (span.start + 1) length⟩ else span

/-- The text of a diagnostic about a span of a source. -/
def render (title label : String) (source : List Char) (span : Span) (color : Bool) : String :=
  let span := visibleSpan span (Text.utf8Length source)
  let lines := sourceLines source
  let shown := markedLines lines span
  let numberColumns := numberColumns source span
  let hasLane := 1 < shown.length
  let room := terminalColumns - Layout.sourceAt numberColumns hasLane
  let layout : Layout := ⟨numberColumns, hasLane, .fit room (extentOf label.toList shown)⟩
  let rows := titleRows title ++ [layout.barRow] ++ layout.excerptRows lines label.toList shown
  "\n".intercalate (rows.map (Row.text color))

end BitTemplate.Diagnostic
