/-!
Text with its controls made visible. A tab becomes four spaces, another control its picture, a control of text
direction the replacement character, and a joiner is left out. Line feeds stay.
-/

namespace BitTemplate.Text

/-- The characters that a character is shown as. -/
def visibleChar (c : Char) : List Char :=
  let code := c.toNat
  if c = '\n' then [c]
  else if c = '\t' then [' ', ' ', ' ', ' ']
  else if code < 0x20 then [Char.ofNat (0x2400 + code)]
  else if code = 0x7f then [Char.ofNat 0x2421]
  else if code = 0x200d then []
  else if (0x202a ≤ code ∧ code ≤ 0x202e) ∨ (0x2066 ≤ code ∧ code ≤ 0x2069) then [Char.ofNat 0xfffd]
  else [c]

/-- A text with its controls made visible. -/
def visible (text : List Char) : List Char :=
  text.flatMap visibleChar

end BitTemplate.Text
