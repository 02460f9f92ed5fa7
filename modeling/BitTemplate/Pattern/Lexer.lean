import BitTemplate.Pattern.Token

/-!
Tokens of a pattern text. Blanks separate tokens and the longest match wins. Where no token matches, the error covers
the longest text that could still have become a token, one character at least; neighbouring errors are one, also with
blanks between them.
-/

namespace BitTemplate.Pattern

/-! ## Matching -/

/-- What a text can start with: the longest token so far with its length, and the length up to which some token was
still possible. -/
structure Match where
  best : Option (TokenKind × Nat)
  viable : Nat

/-- The kinds that remain possible after a character. -/
def advance (c : Char) (live : List (TokenKind × Text.Regular)) : List (TokenKind × Text.Regular) :=
  (live.map fun (kind, r) => (kind, r.after c)).filter fun (_, r) => !r.isVoid

/-- Extends a match by the characters of a text as long as some kind remains possible. -/
def extend (live : List (TokenKind × Text.Regular)) (found : Match) : List Char → Match
  | [] => found
  | c :: rest =>
    let next := advance c live
    if next.isEmpty then found
    else
      let length := found.viable + 1
      let best := match next.find? fun (_, r) => r.hasNil with
        | some (kind, _) => some (kind, length)
        | none => found.best
      extend next ⟨best, length⟩ rest

/-- The kind of the token at the start of a text and the number of its characters after the first. -/
def scan (text : List Char) : TokenKind × Nat :=
  let found := extend (TokenKind.all.map fun kind => (kind, kind.texts)) ⟨none, 0⟩ text
  match found.best with
  | some (kind, length) => (kind, length - 1)
  | none => (.garbage, found.viable - 1)

/-! ## Tokens -/

/-- Whether a character separates tokens. -/
def isSeparator (c : Char) : Bool :=
  c == ' ' || c == '\t' || c == '\r' || c == '\n' || c == '\x0c'

/-- The tokens and errors of a text that starts at an offset. -/
def tokensFrom (offset : Nat) : List Char → List Token
  | [] => []
  | c :: rest =>
    if isSeparator c then tokensFrom (offset + c.utf8Size) rest
    else
      let (kind, more) := scan (c :: rest)
      let stop := offset + c.utf8Size + Text.utf8Length (rest.take more)
      ⟨kind, ⟨offset, stop⟩⟩ :: tokensFrom stop (rest.drop more)
  termination_by text => text.length
  decreasing_by
    · simp
    · simp only [List.length_drop, List.length_cons]
      omega

/-- Makes one error of neighbouring errors. -/
def mergeGarbage : List Token → List Token
  | [] => []
  | token :: rest =>
    match mergeGarbage rest with
    | [] => [token]
    | next :: merged =>
      if token.kind = .garbage ∧ next.kind = .garbage then
        ⟨.garbage, ⟨token.span.start, next.span.stop⟩⟩ :: merged
      else token :: next :: merged

/-- The tokens of a pattern. -/
def tokens (source : List Char) : List Token :=
  mergeGarbage (tokensFrom 0 source)

end BitTemplate.Pattern
