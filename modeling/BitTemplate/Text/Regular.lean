/-!
Regular expressions over characters and their derivatives. The derivative of an expression by a character stands for the
rests of the texts that start with the character, so a text belongs to an expression when the derivative by all its
characters has the empty text. An expression is void when no text belongs to it; the derivative by a text is void when
no longer text that starts with it belongs to the expression either.
-/

namespace BitTemplate.Text

/-- A regular expression. Every test of a single character is meant to hold of some character. -/
inductive Regular where
  /-- No text. -/
  | void
  /-- The empty text. -/
  | nil
  /-- One character that passes a test. -/
  | one (test : Char → Bool)
  | seq (first second : Regular)
  | alt (left right : Regular)
  | star (body : Regular)

namespace Regular

/-! ## Construction -/

/-- A fixed character. -/
def char (c : Char) : Regular :=
  one (· == c)

/-- One of some characters. -/
def oneOf (chars : List Char) : Regular :=
  one (chars.contains ·)

/-- A fixed text. -/
def word : List Char → Regular
  | [] => nil
  | [c] => char c
  | c :: rest => seq (char c) (word rest)

/-- One repetition or more. -/
def plus (body : Regular) : Regular :=
  seq body (star body)

/-- One repetition or none. -/
def option (body : Regular) : Regular :=
  alt nil body

/-! ## Derivatives -/

/-- Whether the empty text belongs to an expression. -/
def hasNil : Regular → Bool
  | void => false
  | nil => true
  | one _ => false
  | seq first second => first.hasNil && second.hasNil
  | alt left right => left.hasNil || right.hasNil
  | star _ => true

/-- Whether no text belongs to an expression. -/
def isVoid : Regular → Bool
  | void => true
  | nil => false
  | one _ => false
  | seq first second => first.isVoid || second.isVoid
  | alt left right => left.isVoid && right.isVoid
  | star _ => false

/-- A sequence, simplified where a part is void or empty. -/
def join (first second : Regular) : Regular :=
  match first, second with
  | void, _ => void
  | _, void => void
  | nil, second => second
  | first, second => seq first second

/-- An alternative, simplified where a part is void. -/
def either (left right : Regular) : Regular :=
  match left, right with
  | void, right => right
  | left, void => left
  | left, right => alt left right

/-- The rests of the texts that start with a character. -/
def after (c : Char) : Regular → Regular
  | void => void
  | nil => void
  | one test => if test c then nil else void
  | seq first second =>
    if first.hasNil then either (join (first.after c) second) (second.after c) else join (first.after c) second
  | alt left right => either (left.after c) (right.after c)
  | star body => join (body.after c) (star body)

/-- The rests of the texts that start with a text. -/
def afterAll (r : Regular) (text : List Char) : Regular :=
  text.foldl (fun r c => r.after c) r

/-- Whether a text belongs to an expression. -/
def accepts (r : Regular) (text : List Char) : Bool :=
  (r.afterAll text).hasNil

end Regular

end BitTemplate.Text
