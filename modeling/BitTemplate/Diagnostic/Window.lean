import BitTemplate.Text.Columns

/-!
The columns of the source that a diagnostic shows. Lines that fit are shown whole; of longer ones the window shows the
part around the span, with its label if there is room.
-/

namespace BitTemplate.Diagnostic

/-! ## Columns -/

/-- The columns that a text takes. -/
def textColumns (text : List Char) : Nat :=
  text.foldl (fun columns c => columns + Text.columns c) 0

/-- What is left of a text after at least some columns of it, and the columns before that. -/
def skipColumns : (count : Nat) → List Char → Nat × List Char
  | 0, text => (0, text)
  | _, [] => (0, [])
  | count, c :: rest =>
    let (skipped, rest) := skipColumns (count - Text.columns c) rest
    (Text.columns c + skipped, rest)
  termination_by structural _ text => text

/-- The start of a text that fits into some columns. -/
def takeColumns (room : Nat) : List Char → List Char
  | [] => []
  | c :: rest => if Text.columns c ≤ room then c :: takeColumns (room - Text.columns c) rest else []

/-! ## Windows -/

/-- What a window has to make room for. -/
structure Extent where
  /-- The blanks that all shown lines start with. -/
  indent : Nat
  /-- The first column of the span. -/
  spanStart : Nat
  /-- The column after the span. -/
  spanStop : Nat
  /-- The column after the label. -/
  labelStop : Nat
  /-- The columns of the longest shown line. -/
  longest : Nat
deriving DecidableEq, Repr

/-- The columns from `left` up to `right`, of a terminal with room for `room` columns. -/
structure Window where
  left : Nat
  right : Nat
  room : Nat
deriving DecidableEq, Repr

namespace Window

/-- The columns of context around a span. -/
def context : Nat := 6

/-- An indent that is worth cutting off. -/
def longIndent : Nat := 20

/-- The blanks that stay of an indent which is cut off. -/
def keptIndent : Nat := 4

/-- The window for some extent. -/
def fit (room : Nat) (extent : Extent) : Window :=
  let indent := extent.indent - context
  let spanStart := extent.spanStart - context
  let spanStop := extent.spanStop + context
  let labelStop := extent.labelStop + context
  let left := if longIndent < indent then indent - (longIndent - keptIndent) else 0
  let right := max extent.longest left
  if right - left ≤ room then ⟨left, right, room⟩
  else if labelStop - indent ≤ room then ⟨indent, indent + room, room⟩
  else if labelStop - spanStart ≤ room then
    let left := spanStart - (room - (labelStop - spanStart)) / 2
    ⟨left, left + room, room⟩
  else if spanStop - spanStart ≤ room then
    let left := spanStart - (room - (spanStop - spanStart)) / 5 * 2
    ⟨left, left + room, room⟩
  else ⟨spanStart, spanStop, room⟩

/-- The column up to which a line of some length is shown. -/
def rightOf (window : Window) (length : Nat) : Nat :=
  if length - window.left ≤ window.room then length else min length window.right

end Window

end BitTemplate.Diagnostic
