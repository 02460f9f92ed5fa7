/-!
Rows of a diagnostic. A row is a list of inked characters. Text is written at a column, over what stands there; blanks
fill a gap before it. Without colors a row shows as its characters alone.
-/

namespace BitTemplate.Diagnostic

/-- The inks of a diagnostic. -/
inductive Ink where
  /-- Source text and blanks. -/
  | plain
  /-- The title. -/
  | title
  /-- Line numbers, the bar beside them and dots for what is left out. -/
  | gutter
  /-- The name of the level, underlines and labels. -/
  | mark
deriving DecidableEq, Repr

namespace Ink

/-- The control sequence that a stretch of an ink starts with. -/
def start : Ink → List Char
  | .plain => []
  | .title => "\x1b[1m".toList
  | .gutter => "\x1b[1m\x1b[94m".toList
  | .mark => "\x1b[1m\x1b[91m".toList

/-- The control sequence that a stretch of an ink ends with. -/
def stop : Ink → List Char
  | .plain => []
  | _ => "\x1b[0m".toList

end Ink

/-- A character in an ink. -/
structure Cell where
  glyph : Char
  ink : Ink
deriving DecidableEq, Repr

/-- A row of a diagnostic. -/
abbrev Row := List Cell

/-- Characters in one ink. -/
def inked (ink : Ink) (text : List Char) : Row :=
  text.map (⟨·, ink⟩)

/-- Some blanks. -/
def blanks (count : Nat) : Row :=
  List.replicate count ⟨' ', .plain⟩

/-- The dots that stand for what is left out. -/
def dots : Row :=
  inked .gutter ['.', '.', '.']

namespace Row

/-- A row with some cells written at a column. -/
def write (row : Row) (column : Nat) (cells : Row) : Row :=
  if cells.isEmpty then row
  else (row ++ blanks (column - row.length)).take column ++ cells ++ row.drop (column + cells.length)

/-- A row with dots in the place of the columns from `start` up to `stop`, if it has them. -/
def shorten (row : Row) (start stop : Nat) : Row :=
  if start ≤ row.length ∧ stop ≤ row.length then row.take start ++ dots ++ row.drop stop else row

/-- The characters of a row after a stretch of the current ink; a change of ink ends one stretch and starts another. -/
def colored (current : Ink) : Row → List Char
  | [] => current.stop
  | cell :: rest =>
    if cell.ink = current then cell.glyph :: colored current rest
    else current.stop ++ cell.ink.start ++ cell.glyph :: colored cell.ink rest

/-- The text of a row, with or without colors. -/
def text (color : Bool) (row : Row) : String :=
  String.ofList (if color then colored .plain row else row.map Cell.glyph)

end Row

end BitTemplate.Diagnostic
