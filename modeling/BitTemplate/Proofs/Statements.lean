import BitTemplate.Pattern.Compile
import BitTemplate.Proofs.Outcome

/-!
Items of patterns. Most items are one token; an assertion is three and the definition of a label with a value four. The
main statement says which tokens the compiler takes for an item and what it makes of them.
-/

namespace BitTemplate.Pattern

/-- The instruction of a directive that a span spells. -/
def instructionAt (source : List Char) (span : Span) (directive : Directive) : Instruction :=
  ⟨String.ofList (span.of source), span, directive⟩

/-! ## Items -/

/-- The constant that a token stands for. -/
inductive Denotes (source : List Char) (token : Token) : Literal → Prop
  | number {literal : Literal} (kind : token.kind = .number)
      (value : numberLiteral (token.text source) = .ok literal) : Denotes source token literal
  | str (kind : token.kind = .str) : Denotes source token (.str (String.ofList (between 1 (token.text source))))

/-- The tokens of one item, and its instruction. -/
inductive Item (source : List Char) : List Token → Instruction → Prop
  | single {token : Token} {directive : Directive}
      (means : single token.kind (token.text source) = .ok (.directive directive)) :
      Item source [token] (instructionAt source token.span directive)
  | assertion {equals literal semicolon : Token} {expected : Literal} (equal : equals.kind = .equals)
      (constant : Denotes source literal expected) (close : semicolon.kind = .semicolon) :
      Item source [equals, literal, semicolon]
        (instructionAt source ⟨equals.span.start, semicolon.span.stop⟩ (.control (.assertion expected)))
  | label {token equals literal semicolon : Token} {name : String} {value : Literal} (define : token.kind = .defLabel)
      (named : labelName 2 (token.text source) = .ok name) (equal : equals.kind = .equals)
      (constant : Denotes source literal value) (close : semicolon.kind = .semicolon) :
      Item source [token, equals, literal, semicolon]
        (instructionAt source ⟨token.span.start, semicolon.span.stop⟩ (.control (.defLabel name (some value))))

/-- Whether an item ends before some tokens: a label that an equals sign follows goes on with its value. -/
def EndsBefore (item rest : List Token) : Prop :=
  item.map Token.kind = [.defLabel] → rest.head?.map Token.kind ≠ some .equals

theorem EndsBefore.of_cons_cons (first second : Token) (more rest : List Token) :
    EndsBefore (first :: second :: more) rest :=
  fun single => by simp at single

/-! ## Constants -/

variable {source : List Char} {token : Token} {tokens rest : List Token} {span : Span}

/-- The constant that a token has to be. -/
def constantAt (source : List Char) (token : Token) : Except PatternError Literal :=
  match token.kind with
  | .number => (numberLiteral (token.text source)).mapError (errorAt source token.span)
  | .str => .ok (.str (String.ofList (between 1 (token.text source))))
  | _ => .error (errorAt source token.span .expectedLiteral)

theorem constantAt_ok {literal : Literal} : constantAt source token = .ok literal ↔ Denotes source token literal := by
  constructor
  · intro h
    simp only [constantAt] at h
    split at h
    · exact .number ‹_› (except_mapError_ok.mp h)
    · cases h
      exact .str ‹_›
    · cases h
  · intro h
    cases h with
    | number kind value => simp only [constantAt, kind, except_mapError_ok, value]
    | str kind => simp only [constantAt, kind]

/-- After the constant comes a semicolon. -/
theorem readLiteral_cons (after : Nat) (first : Token) (more : List Token) :
    readLiteral source after (first :: more) = (do
      let literal ← constantAt source first
      match more with
      | [] => .error (errorAt source ⟨first.span.stop, first.span.stop⟩ .expectedSemicolon)
      | semicolon :: rest =>
        if semicolon.kind = .semicolon then return (literal, semicolon.span.stop, rest)
        else .error (errorAt source semicolon.span .expectedSemicolon)) := by
  simp only [readLiteral, constantAt]
  cases first.kind <;> rfl

theorem readLiteral_ok {after stop : Nat} {literal : Literal} :
    readLiteral source after tokens = .ok (literal, stop, rest) ↔
      ∃ first semicolon, tokens = first :: semicolon :: rest ∧ Denotes source first literal
        ∧ semicolon.kind = .semicolon ∧ stop = semicolon.span.stop := by
  constructor
  · intro h
    match tokens with
    | [] => cases h
    | [first] =>
      rw [readLiteral_cons, except_bind_ok] at h
      obtain ⟨_, _, ⟨⟩⟩ := h
    | first :: semicolon :: tokens =>
      rw [readLiteral_cons, except_bind_ok] at h
      obtain ⟨value, denotes, h⟩ := h
      dsimp only at h
      split at h
      · cases h
        exact ⟨first, semicolon, rfl, constantAt_ok.mp denotes, ‹_›, rfl⟩
      · cases h
  · rintro ⟨first, semicolon, rfl, denotes, close, rfl⟩
    rw [readLiteral_cons, constantAt_ok.mpr denotes]
    exact if_pos close

/-! ## Statements -/

/-- A token that does not go on is a statement by itself. -/
theorem readStatement_single (ends : EndsBefore [token] tokens) (other : token.kind ≠ .equals) :
    readStatement source token tokens = (do
      let statement ← (single token.kind (token.text source)).mapError (errorAt source token.span)
      return (statement, token.span, tokens)) := by
  simp only [readStatement]
  split
  · exact absurd ‹_› other
  · rename_i define
    exact absurd rfl (ends (by simp [define]))
  · rfl

theorem readStatement_assertion (equal : token.kind = .equals) :
    readStatement source token tokens = (do
      let (expected, stop, rest) ← readLiteral source token.span.stop tokens
      return (.directive (.control (.assertion expected)), ⟨token.span.start, stop⟩, rest)) := by
  simp only [readStatement, equal]

theorem readStatement_label {equals : Token} (define : token.kind = .defLabel) (equal : equals.kind = .equals) :
    readStatement source token (equals :: tokens) = (do
      let name ← (labelName 2 (token.text source)).mapError (errorAt source token.span)
      let (value, stop, rest) ← readLiteral source token.span.stop tokens
      return (.directive (.control (.defLabel name (some value))), ⟨token.span.start, stop⟩, rest)) := by
  obtain ⟨kind, place⟩ := equals
  cases equal
  simp only [readStatement, define]

theorem instructionAt_inj {span span' : Span} {directive directive' : Directive}
    (h : instructionAt source span directive = instructionAt source span' directive') :
    span = span' ∧ directive = directive' :=
  ⟨congrArg Instruction.span h, congrArg Instruction.directive h⟩

theorem readStatement_directive {directive : Directive} :
    readStatement source token tokens = .ok (.directive directive, span, rest) ↔
      ∃ front, token :: tokens = front ++ rest ∧ Item source front (instructionAt source span directive)
        ∧ EndsBefore front rest := by
  constructor
  · intro h
    simp only [readStatement] at h
    split at h
    · rename_i equal
      simp only [except_bind_ok, except_pure_ok] at h
      obtain ⟨⟨_, _, _⟩, read, h⟩ := h
      cases h
      obtain ⟨literal, semicolon, rfl, denotes, close, rfl⟩ := readLiteral_ok.mp read
      exact ⟨[token, literal, semicolon], rfl, .assertion equal denotes close, .of_cons_cons _ _ _ _⟩
    · rename_i equals tokens define
      simp only [except_bind_ok, except_pure_ok, except_mapError_ok] at h
      obtain ⟨name, named, ⟨_, _, _⟩, read, h⟩ := h
      cases h
      obtain ⟨literal, semicolon, rfl, denotes, close, rfl⟩ := readLiteral_ok.mp read
      exact ⟨[token, _, literal, semicolon], rfl, .label define named rfl denotes close, .of_cons_cons _ _ _ _⟩
    · rename_i noValue
      simp only [except_bind_ok, except_pure_ok, except_mapError_ok] at h
      obtain ⟨_, means, h⟩ := h
      cases h
      refine ⟨[token], rfl, .single means, fun define next => ?_⟩
      cases rest with
      | nil => cases next
      | cons equals rest =>
        have equal : equals.kind = .equals := by simpa using next
        exact noValue equals.span rest (by simpa using define) (by rw [← equal])
  · rintro ⟨front, split, item, ends⟩
    generalize made : instructionAt source span directive = i at item
    cases item with
    | single means =>
      obtain ⟨rfl, rfl⟩ := instructionAt_inj made
      obtain ⟨rfl, rfl⟩ := List.cons.inj split
      have other : token.kind ≠ .equals := by
        intro equal
        rw [equal] at means
        cases means
      rw [readStatement_single ends other, means]
      rfl
    | @assertion equals literal semicolon expected equal denotes close =>
      obtain ⟨rfl, rfl⟩ := instructionAt_inj made
      obtain ⟨rfl, rfl⟩ := List.cons.inj split
      have read : readLiteral source token.span.stop (literal :: semicolon :: rest)
          = .ok (expected, semicolon.span.stop, rest) := readLiteral_ok.mpr ⟨_, _, rfl, denotes, close, rfl⟩
      rw [readStatement_assertion equal]
      exact except_bind_ok.mpr ⟨_, read, rfl⟩
    | @label _ equals literal semicolon name value define named equal denotes close =>
      obtain ⟨rfl, rfl⟩ := instructionAt_inj made
      obtain ⟨rfl, rfl⟩ := List.cons.inj split
      have read : readLiteral source token.span.stop (literal :: semicolon :: rest)
          = .ok (value, semicolon.span.stop, rest) := readLiteral_ok.mpr ⟨_, _, rfl, denotes, close, rfl⟩
      refine (readStatement_label define equal).trans ?_
      exact except_bind_ok.mpr ⟨name, except_mapError_ok.mpr named, except_bind_ok.mpr ⟨_, read, rfl⟩⟩

/-- Every statement but a directive is a single token. -/
theorem readStatement_other {statement : Statement} (other : ∀ directive, statement ≠ .directive directive)
    (h : readStatement source token tokens = .ok (statement, span, rest)) :
    single token.kind (token.text source) = .ok statement ∧ span = token.span ∧ rest = tokens := by
  simp only [readStatement] at h
  split at h
  · simp only [except_bind_ok, except_pure_ok] at h
    obtain ⟨_, _, h⟩ := h
    cases h
    exact absurd rfl (other _)
  · simp only [except_bind_ok, except_pure_ok] at h
    obtain ⟨_, _, _, _, h⟩ := h
    cases h
    exact absurd rfl (other _)
  · simp only [except_bind_ok, except_pure_ok, except_mapError_ok] at h
    obtain ⟨_, means, h⟩ := h
    cases h
    exact ⟨means, rfl, rfl⟩

/-- What is read as a directive is no other statement. -/
theorem map_directive_ne {x : Except Cause Directive} {statement : Statement}
    (other : ∀ directive, statement ≠ .directive directive) : Statement.directive <$> x ≠ .ok statement := by
  cases x with
  | error cause => exact fun h => nomatch h
  | ok directive =>
    intro h
    cases h
    exact other directive rfl

/-- The statements that are no directives are comments and the two ends of blocks. -/
theorem single_other {kind : TokenKind} {text : List Char} {statement : Statement}
    (other : ∀ directive, statement ≠ .directive directive) (h : single kind text = .ok statement) :
    (kind = .comment ∧ statement = .comment) ∨ (kind = .braceOpen ∧ statement = .openBlock)
      ∨ (kind = .braceClose ∧ statement = .closeBlock (text.drop 1)) := by
  have named {count : Nat} {f : String → Statement} (h : (do return f (← labelName count text)) = .ok statement) :
      ∃ name, f name = statement := by
    rw [except_bind_ok] at h
    obtain ⟨name, _, same⟩ := h
    exact ⟨name, except_pure_ok.mp same⟩
  cases kind with
  | comment => exact .inl ⟨rfl, (Except.ok.inj h).symm⟩
  | braceOpen => exact .inr (.inl ⟨rfl, (Except.ok.inj h).symm⟩)
  | braceClose => exact .inr (.inr ⟨rfl, (Except.ok.inj h).symm⟩)
  | bracketOpen => exact absurd (Except.ok.inj h).symm (other _)
  | bracketClose => exact absurd (Except.ok.inj h).symm (other _)
  | setLabel =>
    obtain ⟨_, same⟩ := named h
    exact absurd same.symm (other _)
  | matchLabel =>
    obtain ⟨_, same⟩ := named h
    exact absurd same.symm (other _)
  | defLabel =>
    obtain ⟨_, same⟩ := named h
    exact absurd same.symm (other _)
  | semicolon => cases h
  | str => cases h
  | number => cases h
  | equals => cases h
  | garbage => cases h
  | _ => exact absurd h (map_directive_ne other)

/-- Tokens that are neither labels nor equals signs are statements by themselves. -/
theorem readStatement_of_kind {statement : Statement} (noLabel : token.kind ≠ .defLabel) (noEquals : token.kind ≠ .equals)
    (means : single token.kind (token.text source) = .ok statement) :
    readStatement source token tokens = .ok (statement, token.span, tokens) := by
  rw [readStatement_single (fun define => absurd (by simpa using define) noLabel) noEquals, means]
  rfl

theorem readStatement_comment :
    readStatement source token tokens = .ok (.comment, span, rest) ↔
      token.kind = .comment ∧ span = token.span ∧ rest = tokens := by
  constructor
  · intro h
    have other (directive : Directive) : Statement.comment ≠ .directive directive := fun same => nomatch same
    obtain ⟨means, rfl, rfl⟩ := readStatement_other other h
    rcases single_other other means with ⟨kind, _⟩ | ⟨_, ⟨⟩⟩ | ⟨_, ⟨⟩⟩
    exact ⟨kind, rfl, rfl⟩
  · rintro ⟨kind, rfl, rfl⟩
    exact readStatement_of_kind (by simp [kind]) (by simp [kind]) (by rw [kind]; rfl)

theorem readStatement_openBlock :
    readStatement source token tokens = .ok (.openBlock, span, rest) ↔
      token.kind = .braceOpen ∧ span = token.span ∧ rest = tokens := by
  constructor
  · intro h
    have other (directive : Directive) : Statement.openBlock ≠ .directive directive := fun same => nomatch same
    obtain ⟨means, rfl, rfl⟩ := readStatement_other other h
    rcases single_other other means with ⟨_, ⟨⟩⟩ | ⟨kind, _⟩ | ⟨_, ⟨⟩⟩
    exact ⟨kind, rfl, rfl⟩
  · rintro ⟨kind, rfl, rfl⟩
    exact readStatement_of_kind (by simp [kind]) (by simp [kind]) (by rw [kind]; rfl)

theorem readStatement_closeBlock {text : List Char} :
    readStatement source token tokens = .ok (.closeBlock text, span, rest) ↔
      token.kind = .braceClose ∧ text = (token.text source).drop 1 ∧ span = token.span ∧ rest = tokens := by
  constructor
  · intro h
    have other (directive : Directive) : Statement.closeBlock text ≠ .directive directive := fun same => nomatch same
    obtain ⟨means, rfl, rfl⟩ := readStatement_other other h
    rcases single_other other means with ⟨_, ⟨⟩⟩ | ⟨_, ⟨⟩⟩ | ⟨kind, same⟩
    cases same
    exact ⟨kind, rfl, rfl, rfl⟩
  · rintro ⟨kind, rfl, rfl, rfl⟩
    exact readStatement_of_kind (by simp [kind]) (by simp [kind]) (by rw [kind]; rfl)

/-- An item is the instruction of a directive, which stands at its first token. -/
theorem Item.exists_directive {front : List Token} {instruction : Instruction} (h : Item source front instruction) :
    ∃ span directive, instruction = instructionAt source span directive := by
  cases h <;> exact ⟨_, _, rfl⟩

theorem Item.ne_nil {front : List Token} {instruction : Instruction} (h : Item source front instruction) :
    front ≠ [] := by
  cases h <;> exact List.cons_ne_nil _ _

/-- The tokens after a statement are the last of those before. -/
theorem readStatement_suffix {statement : Statement}
    (h : readStatement source token tokens = .ok (statement, span, rest)) : rest <:+ tokens := by
  cases statement with
  | directive directive =>
    obtain ⟨front, split, item, _⟩ := readStatement_directive.mp h
    obtain ⟨first, more, rfl⟩ := List.exists_cons_of_ne_nil item.ne_nil
    exact ⟨more, (List.cons.inj split).2.symm⟩
  | openBlock =>
    obtain ⟨_, _, rfl⟩ := readStatement_openBlock.mp h
    exact List.suffix_rfl
  | closeBlock count =>
    obtain ⟨_, _, _, rfl⟩ := readStatement_closeBlock.mp h
    exact List.suffix_rfl
  | comment =>
    obtain ⟨_, _, rfl⟩ := readStatement_comment.mp h
    exact List.suffix_rfl

end BitTemplate.Pattern
