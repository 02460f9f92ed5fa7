/-!
Colors of terminal text. Four roles share one palette: blue for mnemonics, green for literal text, dim for structure and
positions, and the end of a colored stretch. The plain palette writes nothing.
-/

namespace BitTemplate

/-- The control sequences of the four roles. -/
structure Palette where
  blue : String
  green : String
  dim : String
  reset : String
deriving DecidableEq

namespace Palette

/-- No colors. -/
def plain : Palette := ⟨"", "", "", ""⟩

/-- The colors of a terminal. -/
def colored : Palette := ⟨"\x1b[34m", "\x1b[32m", "\x1b[2m", "\x1b[0m"⟩

/-- The palette for a choice of colors or none. -/
def select (color : Bool) : Palette :=
  if color then colored else plain

/-- A text in the color of literal text. -/
def literal (palette : Palette) (text : String) : String :=
  palette.green ++ text ++ palette.reset

/-- A text in the color of structure. -/
def faint (palette : Palette) (text : String) : String :=
  palette.dim ++ text ++ palette.reset

/-- A text in the color of mnemonics. -/
def mnemonic (palette : Palette) (text : String) : String :=
  palette.blue ++ text ++ palette.reset

end Palette

end BitTemplate
