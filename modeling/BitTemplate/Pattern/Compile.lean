import BitTemplate.Pattern.Lexer
import BitTemplate.Pattern.Statement

/-!
Compiling patterns. The statements are gone through in order; a block is written out as soon as it ends, so a block
inside another one is already flat. No list of instructions grows past the limit on the way.
-/

namespace BitTemplate.Pattern

/-- An open block: the span of its brace and the instructions in it so far. -/
structure Block where
  opening : Span
  body : Array Instruction

/-- The instructions outside blocks and the open blocks, innermost first. -/
structure Layers where
  outside : Array Instruction
  blocks : List Block

namespace Layers

/-- The layers with more instructions in the innermost one, unless it grows past the limit. -/
def add (layers : Layers) (instructions : Array Instruction) : Except Cause Layers :=
  match layers with
  | ⟨outside, []⟩ =>
    if maxInstructions < outside.size + instructions.size then .error .tooManyInstructions
    else .ok ⟨outside ++ instructions, []⟩
  | ⟨outside, ⟨opening, body⟩ :: blocks⟩ =>
    if maxInstructions < body.size + instructions.size then .error .tooManyInstructions
    else .ok ⟨outside, ⟨opening, body ++ instructions⟩ :: blocks⟩

end Layers

/-- The copies of a block's body. -/
def repeated (count : Nat) (body : Array Instruction) : Array Instruction :=
  if body.isEmpty then #[] else (Array.replicate count body).flatten

/-- The number of copies that the text at the end of a block asks for; without a text it is one. -/
def copies (text : List Char) : Except Cause Nat :=
  if text.isEmpty then .ok 1 else count text

/-- Closes the innermost block and adds its copies to the layer around it. -/
def closeBlock (source : List Char) (layers : Layers) (text : List Char) (span : Span) :
    Except PatternError Layers := do
  match layers.blocks with
  | [] => .error (errorAt source span .unopenedBlock)
  | block :: blocks =>
    if text = ['$'] then .error (errorAt source ⟨block.opening.start, span.stop⟩ .unboundedRepetition)
    let count ← (copies text).mapError (errorAt source span)
    if maxInstructions < block.body.size * count then .error (errorAt source span .tooManyInstructions)
    Layers.add { layers with blocks } (repeated count block.body) |>.mapError (errorAt source span)

/-- The layers after a statement. -/
def addStatement (source : List Char) (layers : Layers) (statement : Statement) (span : Span) :
    Except PatternError Layers :=
  match statement with
  | .directive directive =>
    (layers.add #[⟨String.ofList (span.of source), span, directive⟩]).mapError (errorAt source span)
  | .openBlock => .ok { layers with blocks := ⟨span, #[]⟩ :: layers.blocks }
  | .closeBlock count => closeBlock source layers count span
  | .comment => .ok layers

/-- The layers after the statements of some tokens. The fuel is the number of tokens. -/
def addTokens (source : List Char) : (fuel : Nat) → Layers → List Token → Except PatternError Layers
  | fuel + 1, layers, token :: tokens => do
    let (statement, span, tokens) ← readStatement source token tokens
    addTokens source fuel (← addStatement source layers statement span) tokens
  | _, layers, _ => .ok layers

/-- The program of a pattern. -/
def compile (text : String) : Except PatternError Program := do
  let source := text.toList
  let all := tokens source
  let layers ← addTokens source all.length ⟨#[], []⟩ all
  match layers.blocks with
  | [] => return ⟨layers.outside.toList⟩
  | block :: _ => .error (errorAt source block.opening .unclosedBlock)

end BitTemplate.Pattern
