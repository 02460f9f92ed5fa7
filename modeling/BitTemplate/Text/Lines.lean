/-!
Lines of text. A line ends with a line feed, which may follow a carriage return; the last line may have no end. The main
statement says that the lines with their ends are the whole text.
-/

namespace BitTemplate.Text

/-- A line and the characters that end it. -/
structure Line where
  text : List Char
  ending : List Char
deriving DecidableEq, Repr

namespace Line

/-- All characters of a line. -/
def chars (line : Line) : List Char :=
  line.text ++ line.ending

/-- A line with one more character at its start. -/
def addFirst (c : Char) (line : Line) : Line :=
  if c = '\r' ∧ line = ⟨[], ['\n']⟩ then ⟨[], ['\r', '\n']⟩ else { line with text := c :: line.text }

@[simp] theorem chars_addFirst (c : Char) (line : Line) : (line.addFirst c).chars = c :: line.chars := by
  unfold addFirst chars
  split
  case isTrue h => simp [h]
  case isFalse => simp

end Line

/-- The lines of a text with one more character at its start. -/
def addFirst (c : Char) (lines : List Line) : List Line :=
  if c = '\n' then ⟨[], ['\n']⟩ :: lines
  else
    match lines with
    | [] => [⟨[c], []⟩]
    | line :: rest => line.addFirst c :: rest

/-- The lines of a text. -/
def lines (text : List Char) : List Line :=
  text.foldr addFirst []

theorem flatMap_chars_addFirst (c : Char) (lines : List Line) :
    (addFirst c lines).flatMap Line.chars = c :: lines.flatMap Line.chars := by
  unfold addFirst
  split
  case isTrue h => simp [h, Line.chars]
  case isFalse =>
    cases lines with
    | nil => simp [Line.chars]
    | cons line rest => simp

/-- The lines with their ends are the whole text. -/
theorem flatMap_chars_lines (text : List Char) : (lines text).flatMap Line.chars = text := by
  induction text with
  | nil => rfl
  | cons c rest ih => rw [lines, List.foldr_cons, flatMap_chars_addFirst, ← lines, ih]

end BitTemplate.Text
