import Mathlib
import BitTemplate.Proofs.Compiled
import BitTemplate.Proofs.HexText
import BitTemplate.Proofs.Spans

/-!
Line feeds in the text of an instruction. The forms of tokens let a line feed pass only between quotes, and then it is in a
name or a text of the directive, since bytes are no line feeds. The span of an item covers its own tokens, no other token and
what separates them. So an instruction whose text has a line feed quotes it, or the pattern was broken between two tokens
of it.
-/

namespace BitTemplate

/-! ## Quotes -/

/-- The text that a constant has between quotes. -/
def Literal.quotes : Literal → List String
  | .int _ => []
  | .float _ => []
  | .str content => [content]

/-- The names and texts that an action on the record has between quotes. -/
def Control.quotes : Control → List String
  | .setLabel name => [name]
  | .defLabel name value => name :: value.toList.flatMap Literal.quotes
  | .matchLabel name => [name]
  | .assertion expected => expected.quotes
  | .setFlag _ _ => []
  | .nestOpen => []
  | .nestClose => []

/-- The names and texts that a directive has between quotes. -/
def Directive.quotes : Directive → List String
  | .control action => action.quotes
  | _ => []

/-- Whether some of the quotes of a directive has a line feed. -/
def Directive.QuotesLineFeed (directive : Directive) : Prop :=
  ∃ quote ∈ directive.quotes, '\n' ∈ quote.toList

/-- Bytes are spelled without line feeds. -/
theorem Hex.lineFeed_notMem_of_pairs? {text : List Char} {bytes : List UInt8} (read : pairs? text = some bytes) :
    '\n' ∉ text := by
  intro member
  obtain ⟨i, here⟩ := List.getElem?_of_mem member
  have noDigit : ¬ IsDigit '\n' := by decide
  rcases (exists_pairs?_iff.mp ⟨bytes, read⟩).2 i '\n' here with digit | ⟨plus, _⟩
  · exact noDigit digit
  · cases plus

/-! ## Places -/

section

variable {source front text rest : List Char} {span : Span} {c : Char}

/-- The characters of a part of a text are those at the places that its span covers. -/
theorem Span.Cuts.mem_iff (h : span.Cuts source front text rest) :
    c ∈ text ↔ ∃ before after, source = before ++ c :: after ∧ span.Covers (Text.utf8Length before) := by
  obtain ⟨whole, start, stop⟩ := h
  simp only [Span.Covers, start, stop]
  constructor
  · intro member
    obtain ⟨before, after, rfl⟩ := List.append_of_mem member
    have size := c.utf8Size_pos
    refine ⟨front ++ before, after ++ rest, by simp [whole], ?_, ?_⟩
    · rw [Text.utf8Length_append]
      omega
    · simp only [Text.utf8Length_append, Text.utf8Length_cons]
      omega
  · rintro ⟨before, after, place, above, below⟩
    rw [whole] at place
    rcases Pattern.append_eq_append_cons place with ⟨more, rfl, _⟩ | ⟨more, rfl, inside⟩
    · have size := c.utf8Size_pos
      simp only [Text.utf8Length_append, Text.utf8Length_cons] at above
      omega
    · rcases Pattern.append_eq_append_cons inside with ⟨_, rfl, _⟩ | ⟨_, rfl, _⟩
      · simp
      · simp only [Text.utf8Length_append] at below
        omega

/-- A span that fits cuts out a part. -/
theorem Span.Fits.exists_cuts (h : span.Fits source) : ∃ front text rest, span.Cuts source front text rest := by
  obtain ⟨⟨front, after, whole, start⟩, ⟨before, rest, whole', stop⟩, ordered⟩ := h
  rcases List.append_eq_append_iff.mp (whole.symm.trans whole') with ⟨text, rfl, rfl⟩ | ⟨text, rfl, rfl⟩
  · exact ⟨front, text, rest, by rw [whole], start, by rw [stop, Text.utf8Length_append]⟩
  · -- the end comes before the start, so there is nothing between them
    rw [start, stop, Text.utf8Length_append] at ordered
    have nothing : Text.utf8Length text = 0 := by omega
    refine ⟨before ++ text, [], after, by rw [whole, List.nil_append], start, ?_⟩
    rw [stop, Text.utf8Length_append, nothing]
    rfl

end

namespace Pattern

/-! ## Tokens -/

section

variable {source text : List Char} {kind : TokenKind} {token : Token} {directive : Directive}

theorem lineFeed_mem_quotedAfter {start : List Char} {count : Nat} (belongs : text ∈ (quotedAfter start).language)
    (plain : '\n' ∉ start) (size : start.length + 1 = count) : '\n' ∈ text ↔ '\n' ∈ between count text := by
  have whole := quotedAfter_eq belongs size
  generalize between count text = body at whole
  simp [whole, plain]

theorem toList_labelName {count : Nat} {name : String} (named : labelName count text = .ok name) :
    name.toList = between count text := by
  simp only [labelName] at named
  split at named
  · cases named
  · cases named
    exact String.toList_ofList

/-- A single token has a line feed exactly if its directive quotes one. -/
theorem lineFeed_mem_of_single (belongs : text ∈ kind.texts.language)
    (means : single kind text = .ok (.directive directive)) : '\n' ∈ text ↔ directive.QuotesLineFeed := by
  have plain (lacks : kind.texts.lacks '\n' = true) (none : directive.quotes = []) :
      '\n' ∈ text ↔ directive.QuotesLineFeed :=
    iff_of_false (Text.Regular.notMem_of_lacks lacks belongs) (by simp [Directive.QuotesLineFeed, none])
  cases single_makes means with
  | setLabel named | defLabel named | matchLabel named =>
    rw [lineFeed_mem_quotedAfter belongs (by decide) rfl]
    simp [Directive.QuotesLineFeed, Directive.quotes, Control.quotes, toList_labelName named]
  | markerStart digits _ | markerEnd digits _ =>
    rw [lineFeed_mem_quotedAfter belongs (by decide) rfl]
    exact iff_of_false (Hex.lineFeed_notMem_of_pairs? digits) (by simp [Directive.QuotesLineFeed, Directive.quotes])
  | _ => exact plain (by decide) rfl

theorem quotes_of_signedLiteral {negative : Bool} {magnitude : Nat} {literal : Literal}
    (value : signedLiteral negative magnitude = .ok literal) : literal.quotes = [] := by
  simp only [signedLiteral] at value
  split at value
  · cases value
    rfl
  · cases value

theorem quotes_of_unsignedLiteral {negative : Bool} {literal : Literal}
    (value : unsignedLiteral negative text = .ok literal) : literal.quotes = [] := by
  simp only [unsignedLiteral] at value
  split at value
  · exact quotes_of_signedLiteral value
  · exact quotes_of_signedLiteral value
  · split at value
    · cases value
      rfl
    · exact quotes_of_signedLiteral value

/-- Numbers have no quotes. -/
theorem quotes_of_numberLiteral {literal : Literal} (value : numberLiteral text = .ok literal) : literal.quotes = [] := by
  simp only [numberLiteral] at value
  split at value
  · exact quotes_of_unsignedLiteral value
  · exact quotes_of_unsignedLiteral value

theorem text_mem (member : token ∈ tokens source) (same : token.kind = kind) (read : kind ≠ .garbage) :
    token.text source ∈ kind.texts.language := by
  subst same
  exact Text.Regular.accepts_iff.mp (tokens_accepts member read)

theorem lineFeed_notMem_of_kind (member : token ∈ tokens source) (same : token.kind = kind)
    (read : kind ≠ .garbage) (lacks : kind.texts.lacks '\n' = true) : '\n' ∉ token.text source :=
  Text.Regular.notMem_of_lacks lacks (text_mem member same read)

theorem Denotes.lineFeed_mem {literal : Literal} (h : Denotes source token literal)
    (member : token ∈ tokens source) :
    '\n' ∈ token.text source ↔ ∃ quote ∈ literal.quotes, '\n' ∈ quote.toList := by
  cases h with
  | number kind value =>
    exact iff_of_false (lineFeed_notMem_of_kind member kind (by decide) (by decide))
      (by simp [quotes_of_numberLiteral value])
  | str kind =>
    have belongs := text_mem member kind (by decide)
    rw [lineFeed_mem_quotedAfter belongs (by decide) rfl]
    simp [Literal.quotes]

end

/-! ## Items -/

section

variable {source : List Char} {before front rest : List Token} {token : Token} {instruction : Instruction}

/-- The tokens of an item have a line feed exactly if its directive quotes one. -/
theorem Item.lineFeed_mem (h : Item source front instruction) (among : front ⊆ tokens source) :
    (∃ token ∈ front, '\n' ∈ token.text source) ↔ instruction.directive.QuotesLineFeed := by
  cases h with
  | @single token directive means =>
    have read : token.kind ≠ .garbage := by
      intro garbage
      rw [garbage] at means
      cases means
    rw [instructionAt, ← lineFeed_mem_of_single (text_mem (among (by simp)) rfl read) means]
    simp
  | @assertion equals literal semicolon expected equal constant close =>
    have opening := lineFeed_notMem_of_kind (among (by simp)) equal (by decide) (by decide)
    have closing := lineFeed_notMem_of_kind (among (by simp)) close (by decide) (by decide)
    have quoted := constant.lineFeed_mem (among (by simp))
    simpa [opening, closing, instructionAt, Directive.QuotesLineFeed, Directive.quotes, Control.quotes] using quoted
  | @label token equals literal semicolon name value define named equal constant close =>
    have between := lineFeed_notMem_of_kind (among (by simp)) equal (by decide) (by decide)
    have closing := lineFeed_notMem_of_kind (among (by simp)) close (by decide) (by decide)
    have quoted := constant.lineFeed_mem (among (by simp))
    have name : '\n' ∈ token.text source ↔ '\n' ∈ name.toList := by
      rw [toList_labelName named]
      exact lineFeed_mem_quotedAfter (text_mem (among (by simp)) define (by decide)) (by decide) rfl
    simp [between, closing, name, quoted, instructionAt, Directive.QuotesLineFeed, Directive.quotes, Control.quotes]

/-- The span of an item goes from the start of one of its tokens to the stop of another one, with all of them in it. -/
theorem Item.bounds (h : Item source front instruction)
    (ordered : front.Pairwise fun first second => first.span.stop ≤ second.span.start)
    (forward : ∀ token ∈ front, token.span.start ≤ token.span.stop) :
    (∃ first ∈ front, instruction.span.start = first.span.start)
      ∧ (∃ last ∈ front, instruction.span.stop = last.span.stop)
      ∧ ∀ token ∈ front, instruction.span.start ≤ token.span.start ∧ token.span.stop ≤ instruction.span.stop := by
  cases h with
  | single means => simp [instructionAt]
  | assertion equal constant close =>
    simp only [List.pairwise_cons, List.forall_mem_cons] at ordered forward
    simp only [instructionAt, List.forall_mem_cons]
    exact ⟨⟨_, by simp, rfl⟩, ⟨_, by simp, rfl⟩, by simp; omega⟩
  | label define named equal constant close =>
    simp only [List.pairwise_cons, List.forall_mem_cons] at ordered forward
    simp only [instructionAt, List.forall_mem_cons]
    exact ⟨⟨_, by simp, rfl⟩, ⟨_, by simp, rfl⟩, by simp; omega⟩

/-- The span of an item covers what its tokens cover, and nothing that another token covers. -/
theorem Item.covers_iff {place : Nat} (h : Item source front instruction)
    (ordered : (before ++ (front ++ rest)).Pairwise fun first second => first.span.stop ≤ second.span.start)
    (forward : ∀ token ∈ before ++ (front ++ rest), token.span.start ≤ token.span.stop)
    (member : token ∈ before ++ (front ++ rest)) (covered : token.span.Covers place) :
    instruction.span.Covers place ↔ token ∈ front := by
  obtain ⟨_, later, beforeItem⟩ := List.pairwise_append.mp ordered
  obtain ⟨inner, _, afterItem⟩ := List.pairwise_append.mp later
  obtain ⟨⟨first, among, starts⟩, ⟨last, among', stops⟩, inside⟩ :=
    h.bounds inner fun token member => forward token (by simp [member])
  obtain ⟨above, below⟩ := covered
  constructor
  · -- earlier tokens stop before the span starts, and later ones start after it
    rintro ⟨above', below'⟩
    rcases List.mem_append.mp member with early | member
    · have apart := beforeItem token early first (List.mem_append_left _ among)
      omega
    · rcases List.mem_append.mp member with own | late
      · exact own
      · have apart := afterItem last among' token late
        omega
  · intro own
    obtain ⟨left, right⟩ := inside token own
    exact ⟨by omega, by omega⟩

/-- The characters of a token are those at the places that it covers. -/
theorem mem_text_iff {c : Char} (member : token ∈ tokens source) :
    c ∈ token.text source ↔ ∃ front back, source = front ++ c :: back ∧ token.span.Covers (Text.utf8Length front) := by
  obtain ⟨_, _, _, cuts, _⟩ := token_cuts member
  rw [Token.text, cuts.of_eq, cuts.mem_iff]

/-- The text of an instruction has a line feed exactly if its directive quotes one or if there is one in its span that is
outside of all tokens. -/
theorem lineFeed_mem_token {text : String} {program : Program} (compiled : compile text = .ok program)
    (member : instruction ∈ program.instructions) :
    '\n' ∈ instruction.token.toList ↔ instruction.directive.QuotesLineFeed
      ∨ ∃ front back, text.toList = front ++ '\n' :: back ∧ instruction.span.Covers (Text.utf8Length front)
        ∧ ∀ token ∈ tokens text.toList, ¬ token.span.Covers (Text.utf8Length front) := by
  obtain ⟨parts, reads, _, same⟩ := compile_iff.mp compiled
  obtain ⟨spanned, spelled⟩ := reads.spanned instruction (same ▸ member)
  obtain ⟨before, own, rest, split, item, _⟩ := reads.exists_item instruction (same ▸ member)
  have among : own ⊆ tokens text.toList := by simp [split]
  have covers {token : Token} {place : Nat} (member : token ∈ tokens text.toList) (covered : token.span.Covers place) :
      instruction.span.Covers place ↔ token ∈ own :=
    item.covers_iff (split ▸ (tiles_tokens text.toList).pairwise)
      (fun token member => (token_fits (split ▸ member)).1.ordered) (split ▸ member) covered
  obtain ⟨_, _, _, cuts⟩ := spanned.fits.1.exists_cuts
  rw [spelled, String.toList_ofList, cuts.of_eq, cuts.mem_iff, ← item.lineFeed_mem among]
  constructor
  · rintro ⟨front, back, place, within⟩
    by_cases covered : ∃ token ∈ tokens text.toList, token.span.Covers (Text.utf8Length front)
    · obtain ⟨token, member, here⟩ := covered
      exact .inl ⟨token, (covers member here).mp within, (mem_text_iff member).mpr ⟨front, back, place, here⟩⟩
    · exact .inr ⟨front, back, place, within, fun token member here => covered ⟨token, member, here⟩⟩
  · rintro (⟨token, inside, feed⟩ | ⟨front, back, place, within, _⟩)
    · obtain ⟨front, back, place, here⟩ := (mem_text_iff (among inside)).mp feed
      exact ⟨front, back, place, (covers (among inside) here).mpr inside⟩
    · exact ⟨front, back, place, within⟩

end

end Pattern

end BitTemplate
