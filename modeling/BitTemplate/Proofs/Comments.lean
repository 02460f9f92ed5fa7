import Mathlib
import BitTemplate.Proofs.Repetition
import BitTemplate.Proofs.Tiling

/-!
What separates tokens. The directives of a program depend on the kinds and texts of tokens only, so the separators between
them do not matter at all. Comments between statements do not matter either; but a constant comes right after its equals
sign, its semicolon right after it, and the value of a label right after the label, and a comment there is not skipped.
-/

namespace BitTemplate.Pattern

/-! ## Readings under other spans -/

/-- The directives that a pattern compiles to, if it compiles. -/
def directives? (text : String) : Option (List Directive) :=
  match compile text with
  | .ok program => some (program.instructions.map Instruction.directive)
  | .error _ => none

/-- The kinds and the texts of tokens. -/
def spelled (source : List Char) (tokens : List Token) : List (TokenKind × List Char) :=
  tokens.map fun token => (token.kind, token.text source)

namespace Parts

variable {α β : Type}

/-- Parts with other items. -/
def map (f : α → β) : Parts α → Parts β
  | nil => .nil
  | item first rest => .item (f first) (rest.map f)
  | block body count rest => .block (body.map f) count (rest.map f)

theorem expand_map (f : α → β) (parts : Parts α) : (parts.map f).expand = parts.expand.map f := by
  induction parts with
  | nil => rfl
  | item first rest ih => rw [map, expand, ih, expand, List.map_cons]
  | block body count rest ihBody ih => simp [map, expand, ihBody, ih, List.map_flatten]

theorem blocksFit_map {limit : Nat} (f : α → β) (parts : Parts α) :
    (parts.map f).BlocksFit limit ↔ parts.BlocksFit limit := by
  induction parts with
  | nil => exact Iff.rfl
  | item first rest ih => exact ih
  | block body count rest ihBody ih => simp only [map, BlocksFit, expand_map, List.length_map, ihBody, ih]

theorem fits_map {limit : Nat} (f : α → β) (parts : Parts α) : (parts.map f).Fits limit ↔ parts.Fits limit := by
  simp only [Fits, blocksFit_map, expand_map, List.length_map]

end Parts

section

variable {source source' : List Char} {tokens tokens' : List Token} {token token' : Token}

theorem kinds_of_spelled (same : spelled source tokens = spelled source' tokens') :
    tokens.map Token.kind = tokens'.map Token.kind := by
  simpa [spelled, Function.comp_def] using congrArg (List.map Prod.fst) same

theorem Denotes.respell {literal : Literal} (h : Denotes source token literal)
    (same : (token.kind, token.text source) = (token'.kind, token'.text source')) : Denotes source' token' literal := by
  obtain ⟨kind, text⟩ := Prod.mk.inj same
  cases h with
  | number number value => exact .number (kind ▸ number) (text ▸ value)
  | str str =>
    rw [text]
    exact .str (kind ▸ str)

/-- Tokens that are spelled like an item are one, with the same directive. -/
theorem Item.respell {instruction : Instruction} (h : Item source tokens instruction)
    (same : spelled source tokens = spelled source' tokens') :
    ∃ instruction', Item source' tokens' instruction' ∧ instruction'.directive = instruction.directive := by
  cases h with
  | @single token directive means =>
    obtain ⟨token', rfl, first⟩ := List.map_eq_singleton_iff.mp same.symm
    obtain ⟨kind, text⟩ := Prod.mk.inj first
    rw [← kind, ← text] at means
    exact ⟨_, .single means, rfl⟩
  | @assertion equals literal semicolon expected equal denotes close =>
    obtain ⟨equals', _, rfl, first, same⟩ := List.map_eq_cons_iff.mp same.symm
    obtain ⟨literal', _, rfl, second, same⟩ := List.map_eq_cons_iff.mp same
    obtain ⟨semicolon', rfl, third⟩ := List.map_eq_singleton_iff.mp same
    exact ⟨_, .assertion ((Prod.mk.inj first).1.trans equal) (denotes.respell second.symm)
      ((Prod.mk.inj third).1.trans close), rfl⟩
  | @label token equals literal semicolon name value define named equal denotes close =>
    obtain ⟨token', _, rfl, start, same⟩ := List.map_eq_cons_iff.mp same.symm
    obtain ⟨equals', _, rfl, first, same⟩ := List.map_eq_cons_iff.mp same
    obtain ⟨literal', _, rfl, second, same⟩ := List.map_eq_cons_iff.mp same
    obtain ⟨semicolon', rfl, third⟩ := List.map_eq_singleton_iff.mp same
    obtain ⟨kind, text⟩ := Prod.mk.inj start
    rw [← text] at named
    exact ⟨_, .label (kind.trans define) named ((Prod.mk.inj first).1.trans equal) (denotes.respell second.symm)
      ((Prod.mk.inj third).1.trans close), rfl⟩

theorem EndsBefore.congr {item rest item' rest' : List Token} (h : EndsBefore item rest)
    (sameItem : item.map Token.kind = item'.map Token.kind) (sameRest : rest.map Token.kind = rest'.map Token.kind) :
    EndsBefore item' rest' := by
  intro define
  rw [← List.head?_map, ← sameRest, List.head?_map]
  exact h (sameItem.trans define)

/-- Tokens that are spelled alike read as the same directives. -/
theorem Reads.respell {parts : Parts Instruction} (h : Reads source tokens parts)
    (same : spelled source tokens = spelled source' tokens') :
    ∃ parts', Reads source' tokens' parts' ∧ parts'.map Instruction.directive = parts.map Instruction.directive := by
  induction h generalizing tokens' with
  | nil =>
    obtain rfl := List.map_eq_nil_iff.mp same.symm
    exact ⟨_, .nil, rfl⟩
  | comment kind rest ih =>
    obtain ⟨comment, more, rfl, first, same⟩ := List.map_eq_cons_iff.mp same.symm
    obtain ⟨parts', reads, directives⟩ := ih same.symm
    exact ⟨parts', .comment ((Prod.mk.inj first).1.trans kind) reads, directives⟩
  | item item ends rest ih =>
    rw [spelled, List.map_append] at same
    obtain ⟨front', more, rfl, front, same⟩ := List.map_eq_append_iff.mp same.symm
    obtain ⟨instruction', item', directive⟩ := item.respell front.symm
    obtain ⟨parts', reads, directives⟩ := ih same.symm
    have ends' := ends.congr (kinds_of_spelled front.symm) (kinds_of_spelled same.symm)
    exact ⟨.item instruction' parts', .item item' ends' reads, by rw [Parts.map, Parts.map, directive, directives]⟩
  | block opens inside closes copies rest ihInner ih =>
    rw [spelled, List.map_cons, List.map_append, List.map_cons] at same
    obtain ⟨opening, _, rfl, first, same⟩ := List.map_eq_cons_iff.mp same.symm
    obtain ⟨inner, _, rfl, inner_same, same⟩ := List.map_eq_append_iff.mp same
    obtain ⟨closing, more, rfl, last, same⟩ := List.map_eq_cons_iff.mp same
    obtain ⟨body', inside', bodies⟩ := ihInner inner_same.symm
    obtain ⟨parts', reads, directives⟩ := ih same.symm
    obtain ⟨kind, text⟩ := Prod.mk.inj last
    rw [← text] at copies
    exact ⟨.block body' _ parts', .block ((Prod.mk.inj first).1.trans opens) inside' (kind.trans closes) copies reads,
      by rw [Parts.map, Parts.map, bodies, directives]⟩

end

/-! ## Readings without comments -/

/-- The tokens that are no comments. -/
def withoutComments (tokens : List Token) : List Token :=
  tokens.filter fun token => token.kind ≠ .comment

/-- Whether no comment stands where it is not skipped: before a constant, before its semicolon, or between a label and
its value. -/
structure Uninterrupted (tokens : List Token) : Prop where
  constant : ¬ [.equals, .comment] <:+: tokens.map Token.kind
  close : ∀ constant ∈ [TokenKind.number, .str], ¬ [.equals, constant, .comment] <:+: tokens.map Token.kind
  value : ∀ comments < tokens.length,
    ¬ .defLabel :: (List.replicate (comments + 1) .comment ++ [.equals]) <:+: tokens.map Token.kind

section

variable {source : List Char} {tokens rest more : List Token} {token equals literal semicolon : Token}
  {parts : Parts Instruction}

theorem withoutComments_append (front rest : List Token) :
    withoutComments (front ++ rest) = withoutComments front ++ withoutComments rest :=
  List.filter_append ..

theorem withoutComments_cons_comment (kind : token.kind = .comment) :
    withoutComments (token :: tokens) = withoutComments tokens :=
  List.filter_cons_of_neg (by simpa using kind)

theorem withoutComments_cons (kind : token.kind ≠ .comment) :
    withoutComments (token :: tokens) = token :: withoutComments tokens :=
  List.filter_cons_of_pos (by simpa using kind)

/-- The tokens before and after one that is no comment. -/
theorem withoutComments_eq_cons (kept : withoutComments tokens = token :: rest) :
    ∃ comments more, tokens = comments ++ token :: more ∧ (∀ comment ∈ comments, comment.kind = .comment)
      ∧ withoutComments more = rest := by
  obtain ⟨comments, more, split, skipped, _, later⟩ := List.filter_eq_cons_iff.mp kept
  exact ⟨comments, more, split, by simpa using skipped, later⟩

theorem withoutComments_eq_nil (skipped : ∀ comment ∈ tokens, comment.kind = .comment) : withoutComments tokens = [] :=
  List.filter_eq_nil_iff.mpr (by simpa using skipped)

theorem withoutComments_eq_append {front : List Token} (kept : withoutComments tokens = front ++ rest) :
    ∃ first more, tokens = first ++ more ∧ withoutComments first = front ∧ withoutComments more = rest :=
  List.filter_eq_append_iff.mp kept

theorem withoutComments_eq_cons_of_head (kept : withoutComments tokens = token :: rest)
    (noComment : ∀ next more, tokens = next :: more → next.kind ≠ .comment) :
    ∃ more, tokens = token :: more ∧ withoutComments more = rest := by
  cases tokens with
  | nil => cases kept
  | cons next more =>
    rw [withoutComments_cons (noComment next more rfl)] at kept
    obtain ⟨rfl, later⟩ := List.cons.inj kept
    exact ⟨more, rfl, later⟩

theorem Denotes.kind_mem {constant : Literal} (h : Denotes source token constant) :
    token.kind ∈ [TokenKind.number, .str] := by
  cases h with
  | number kind _ => simp [kind]
  | str kind => simp [kind]

namespace Uninterrupted

instance (tokens : List Token) : Decidable (Uninterrupted tokens) :=
  decidable_of_iff
    (¬ [.equals, .comment] <:+: tokens.map Token.kind
      ∧ (∀ constant ∈ [TokenKind.number, .str], ¬ [.equals, constant, .comment] <:+: tokens.map Token.kind)
      ∧ ∀ comments < tokens.length,
        ¬ .defLabel :: (List.replicate (comments + 1) .comment ++ [.equals]) <:+: tokens.map Token.kind)
    ⟨fun ⟨constant, close, value⟩ => ⟨constant, close, value⟩, fun h => ⟨h.constant, h.close, h.value⟩⟩

theorem of_inside (h : Uninterrupted tokens) (inside : more <:+: tokens) : Uninterrupted more where
  constant found := h.constant (found.trans (inside.map _))
  close constant member found := h.close constant member (found.trans (inside.map _))
  value comments bound found :=
    h.value comments (Nat.lt_of_lt_of_le bound inside.length_le) (found.trans (inside.map _))

/-- An equals sign, its constant and the semicolon come one right after the other. -/
theorem constant_close (h : Uninterrupted (equals :: tokens)) (equal : equals.kind = .equals)
    (constant : literal.kind ∈ [TokenKind.number, .str]) (kept : withoutComments tokens = literal :: semicolon :: rest) :
    ∃ more, tokens = literal :: semicolon :: more ∧ withoutComments more = rest := by
  obtain ⟨tokens, rfl, later⟩ := withoutComments_eq_cons_of_head kept fun next more split comment =>
    h.constant ⟨[], more.map Token.kind, by simp [split, equal, comment]⟩
  obtain ⟨more, rfl, last⟩ := withoutComments_eq_cons_of_head later fun next more split comment =>
    h.close literal.kind constant ⟨[], more.map Token.kind, by simp [split, equal, comment]⟩
  exact ⟨more, rfl, last⟩

/-- A label and its value come one right after the other. -/
theorem label_value (h : Uninterrupted (token :: tokens)) (define : token.kind = .defLabel)
    (equal : equals.kind = .equals) (kept : withoutComments tokens = equals :: rest) :
    ∃ more, tokens = equals :: more ∧ withoutComments more = rest := by
  obtain ⟨comments, more, rfl, skipped, later⟩ := withoutComments_eq_cons kept
  cases comments with
  | nil => exact ⟨more, rfl, later⟩
  | cons comment comments =>
    have kinds : (comment :: comments).map Token.kind = List.replicate (comments.length + 1) .comment :=
      List.eq_replicate_iff.mpr ⟨by simp, List.forall_mem_map.mpr skipped⟩
    refine absurd ⟨[], more.map Token.kind, ?_⟩ (h.value comments.length ?_)
    · simp only [List.length_append, List.length_cons]
      omega
    · rw [List.map_cons, List.map_append, define, kinds]
      simp [equal]

end Uninterrupted

theorem Item.withoutComments_eq {instruction : Instruction} (h : Item source tokens instruction) :
    withoutComments tokens = tokens := by
  refine List.filter_eq_self.mpr ?_
  cases h with
  | @single token directive means =>
    have noComment : token.kind ≠ .comment := by
      intro comment
      rw [comment] at means
      cases means
    simpa using noComment
  | assertion equal denotes close =>
    have := denotes.kind_mem
    grind
  | label define named equal denotes close =>
    have := denotes.kind_mem
    grind

/-- The comments among the tokens of an item are all before it. -/
theorem Item.comments_before {front : List Token} {first : Instruction} (item : Item source front first)
    (uninterrupted : Uninterrupted tokens) (kept : withoutComments tokens = front ++ rest) :
    ∃ comments more, tokens = comments ++ (front ++ more) ∧ (∀ comment ∈ comments, comment.kind = .comment)
      ∧ withoutComments more = rest := by
  cases item with
  | @single token directive means => exact withoutComments_eq_cons kept
  | @assertion equals literal semicolon expected equal denotes close =>
    obtain ⟨comments, tokens, rfl, skipped, later⟩ := withoutComments_eq_cons kept
    have after := uninterrupted.of_inside (List.suffix_append comments _).isInfix
    obtain ⟨more, rfl, last⟩ := after.constant_close equal denotes.kind_mem later
    exact ⟨comments, more, rfl, skipped, last⟩
  | @label token equals literal semicolon name value define named equal denotes close =>
    obtain ⟨comments, tokens, rfl, skipped, later⟩ := withoutComments_eq_cons kept
    have after := uninterrupted.of_inside (List.suffix_append comments _).isInfix
    obtain ⟨tokens, rfl, value⟩ := after.label_value define equal later
    have after := after.of_inside (List.suffix_cons token _).isInfix
    obtain ⟨more, rfl, last⟩ := after.constant_close equal denotes.kind_mem value
    exact ⟨comments, more, rfl, skipped, last⟩

/-- A label ends before tokens if it ends before them without their comments. -/
theorem EndsBefore.of_skipped {item : List Token} (h : EndsBefore item (withoutComments tokens)) :
    EndsBefore item tokens := by
  intro define
  cases tokens with
  | nil => simp
  | cons next tokens =>
    by_cases comment : next.kind = .comment
    · simp [comment]
    · simpa [withoutComments_cons comment] using h define

/-- A label ends before tokens also without their comments, unless the comments are all that keeps it from its value. -/
theorem EndsBefore.skipped {item : List Token} (h : EndsBefore item tokens)
    (uninterrupted : Uninterrupted (item ++ tokens)) : EndsBefore item (withoutComments tokens) := by
  intro define next
  obtain ⟨token, rfl, kind⟩ := List.map_eq_singleton_iff.mp define
  cases kept : withoutComments tokens with
  | nil =>
    rw [kept] at next
    cases next
  | cons equals rest =>
    have equal : equals.kind = .equals := by simpa [kept] using next
    obtain ⟨more, rfl, _⟩ := uninterrupted.label_value kind equal kept
    exact h define (by simp [equal])

theorem Reads.skip {comments : List Token} (skipped : ∀ comment ∈ comments, comment.kind = .comment)
    (h : Reads source tokens parts) : Reads source (comments ++ tokens) parts := by
  induction comments with
  | nil => exact h
  | cons comment comments ih =>
    obtain ⟨kind, skipped⟩ := List.forall_mem_cons.mp skipped
    exact .comment kind (ih skipped)

/-- What tokens read as, they read as without comments. -/
theorem Reads.skipped (h : Reads source tokens parts) (uninterrupted : Uninterrupted tokens) :
    Reads source (withoutComments tokens) parts := by
  induction h with
  | nil => exact .nil
  | comment kind rest ih =>
    rw [withoutComments_cons_comment kind]
    exact ih (uninterrupted.of_inside (List.suffix_cons _ _).isInfix)
  | item item ends rest ih =>
    rw [withoutComments_append, item.withoutComments_eq]
    exact .item item (ends.skipped uninterrupted) (ih (uninterrupted.of_inside (List.suffix_append _ _).isInfix))
  | block opens inside closes copies rest ihInner ih =>
    have after := uninterrupted.of_inside (List.suffix_cons _ _).isInfix
    have inner := ihInner (after.of_inside (List.prefix_append _ _).isInfix)
    have after := after.of_inside (List.suffix_append _ _).isInfix
    have later := ih (after.of_inside (List.suffix_cons _ _).isInfix)
    rw [withoutComments_cons (by simp [opens]), withoutComments_append, withoutComments_cons (by simp [closes])]
    exact .block opens inner closes copies later

/-- What tokens read as without comments, they read as with them. -/
theorem Reads.of_skipped (h : Reads source rest parts) (uninterrupted : Uninterrupted tokens)
    (kept : withoutComments tokens = rest) : Reads source tokens parts := by
  induction h generalizing tokens with
  | nil =>
    have skipped : ∀ comment ∈ tokens, comment.kind = .comment := by
      simpa [withoutComments, List.filter_eq_nil_iff] using kept
    simpa using Reads.nil.skip skipped
  | comment kind rest ih =>
    have none : _ ∈ withoutComments tokens := kept ▸ List.mem_cons_self
    simp [withoutComments, kind] at none
  | item item ends rest ih =>
    obtain ⟨comments, more, rfl, skipped, rfl⟩ := item.comments_before uninterrupted kept
    have after := uninterrupted.of_inside (List.suffix_append comments _).isInfix
    have after := after.of_inside (List.suffix_append _ _).isInfix
    exact (Reads.item item ends.of_skipped (ih after rfl)).skip skipped
  | @block opening closing inner rest body parts count opens inside closes copies _ ihInner ih =>
    obtain ⟨comments, tokens, rfl, skipped, later⟩ := withoutComments_eq_cons kept
    obtain ⟨first, tokens, rfl, firstKept, later⟩ := withoutComments_eq_append later
    obtain ⟨trailing, more, rfl, trailed, moreKept⟩ := withoutComments_eq_cons later
    -- the comments before the closing brace are the last tokens of the body
    have bodyKept : withoutComments (first ++ trailing) = inner := by
      rw [withoutComments_append, withoutComments_eq_nil trailed, List.append_nil, firstKept]
    have after := uninterrupted.of_inside (List.suffix_append comments _).isInfix
    have after := after.of_inside (List.suffix_cons _ _).isInfix
    rw [← List.append_assoc] at after ⊢
    have body := ihInner (after.of_inside (List.prefix_append _ _).isInfix) bodyKept
    have after := after.of_inside (List.suffix_append _ _).isInfix
    have later := ih (after.of_inside (List.suffix_cons _ _).isInfix) moreKept
    exact (Reads.block opens body closes copies later).skip skipped

end

/-! ## Comments in constants -/

section

variable {source : List Char} {tokens more : List Token} {equals : Token} {parts : Parts Instruction}

/-- Whether the tokens after an equals sign start with a constant and its semicolon. -/
def StartsConstant (tokens : List Token) : Prop :=
  ∃ literal semicolon rest, tokens = literal :: semicolon :: rest ∧ literal.kind ∈ [TokenKind.number, .str]
    ∧ semicolon.kind = .semicolon

theorem StartsConstant.append (h : StartsConstant tokens) (more : List Token) : StartsConstant (tokens ++ more) := by
  obtain ⟨literal, semicolon, rest, rfl, constant, close⟩ := h
  exact ⟨literal, semicolon, rest ++ more, rfl, constant, close⟩

theorem suffix_append_cases {front rest : List Token} (place : equals :: more <:+ front ++ rest) :
    equals :: more <:+ rest ∨ ∃ within, equals :: within <:+ front ∧ more = within ++ rest := by
  obtain ⟨before, split⟩ := place
  rcases append_eq_append_cons split.symm with ⟨within, rfl, later⟩ | ⟨between, _, later⟩
  · exact .inr ⟨within, List.suffix_append _ _, later⟩
  · exact .inl ⟨between, later.symm⟩

theorem startsConstant_of_suffix {sign literal semicolon : Token} (place : equals :: more <:+ [sign, literal, semicolon])
    (equal : equals.kind = .equals) (constant : literal.kind ∈ [TokenKind.number, .str])
    (close : semicolon.kind = .semicolon) : StartsConstant more := by
  rcases List.suffix_cons_iff.mp place with same | later
  · cases same
    exact ⟨literal, semicolon, [], rfl, constant, close⟩
  · have member : equals ∈ [literal, semicolon] := later.mem List.mem_cons_self
    grind

theorem Item.startsConstant {front : List Token} {first : Instruction} (item : Item source front first)
    (place : equals :: more <:+ front) (equal : equals.kind = .equals) : StartsConstant more := by
  cases item with
  | single means =>
    obtain rfl := List.mem_singleton.mp (place.mem List.mem_cons_self)
    rw [equal] at means
    cases means
  | assertion _ denotes close => exact startsConstant_of_suffix place equal denotes.kind_mem close
  | label define named _ denotes close =>
    rcases List.suffix_cons_iff.mp place with same | later
    · cases same
      rw [define] at equal
      cases equal
    · exact startsConstant_of_suffix later equal denotes.kind_mem close

theorem exists_of_kinds {kind : TokenKind} {kinds : List TokenKind}
    (inside : kind :: kinds <:+: tokens.map Token.kind) :
    ∃ token more, token :: more <:+ tokens ∧ token.kind = kind ∧ kinds <+: more.map Token.kind := by
  obtain ⟨before, after, split⟩ := inside
  rw [List.append_assoc] at split
  obtain ⟨front, back, rfl, _, later⟩ := List.map_eq_append_iff.mp split.symm
  obtain ⟨token, more, rfl, same, rest⟩ := List.map_eq_cons_iff.mp later
  exact ⟨token, more, List.suffix_append _ _, same, after, rest.symm⟩

/-- What reads as parts has a constant and its semicolon right after each equals sign. -/
theorem Reads.startsConstant (h : Reads source tokens parts) (place : equals :: more <:+ tokens)
    (equal : equals.kind = .equals) : StartsConstant more := by
  induction h generalizing more with
  | nil => cases List.suffix_nil.mp place
  | comment kind rest ih =>
    rcases List.suffix_cons_iff.mp place with same | later
    · obtain ⟨rfl, _⟩ := List.cons.inj same
      rw [kind] at equal
      cases equal
    · exact ih later
  | item item ends rest ih =>
    rcases suffix_append_cases place with later | ⟨within, inside, rfl⟩
    · exact ih later
    · exact (item.startsConstant inside equal).append _
  | block opens inside closes copies rest ihInner ih =>
    rcases List.suffix_cons_iff.mp place with same | later
    · obtain ⟨rfl, _⟩ := List.cons.inj same
      rw [opens] at equal
      cases equal
    · rcases suffix_append_cases later with later | ⟨within, inside, rfl⟩
      · rcases List.suffix_cons_iff.mp later with same | later
        · obtain ⟨rfl, _⟩ := List.cons.inj same
          rw [closes] at equal
          cases equal
        · exact ih later
      · exact (ihInner inside).append _

/-- What reads as parts has no comments in its constants. -/
theorem Reads.no_comment {constant : List TokenKind} (h : Reads source tokens parts)
    (kinds : constant ∈ [[], [TokenKind.number], [.str]]) :
    ¬ .equals :: (constant ++ [.comment]) <:+: tokens.map Token.kind := by
  intro inside
  obtain ⟨equals, more, place, equal, starts⟩ := exists_of_kinds inside
  obtain ⟨literal, semicolon, rest, rfl, value, close⟩ := h.startsConstant place equal
  have next : literal.kind ≠ .comment := ne_of_mem_of_not_mem value (by decide)
  simp only [List.mem_cons, List.not_mem_nil, or_false] at kinds
  rcases kinds with rfl | rfl | rfl
  · exact next (List.cons_prefix_cons.mp starts).1.symm
  · exact absurd ((List.cons_prefix_cons.mp (List.cons_prefix_cons.mp starts).2).1.trans close) (by decide)
  · exact absurd ((List.cons_prefix_cons.mp (List.cons_prefix_cons.mp starts).2).1.trans close) (by decide)

end

/-! ## Patterns -/

theorem directives?_eq_some {text : String} {directives : List Directive} :
    directives? text = some directives ↔
      ∃ parts, Reads text.toList (tokens text.toList) parts ∧ parts.Fits maxInstructions
        ∧ (parts.map Instruction.directive).expand = directives := by
  have compiles : directives? text = some directives ↔
      ∃ program, compile text = .ok program ∧ program.instructions.map Instruction.directive = directives := by
    simp only [directives?]
    cases compile text <;> simp
  simp only [compiles, compile_iff, Parts.expand_map]
  constructor
  · rintro ⟨program, ⟨parts, reads, fits, same⟩, rfl⟩
    exact ⟨parts, reads, fits, by rw [same]⟩
  · rintro ⟨parts, reads, fits, rfl⟩
    exact ⟨⟨parts.expand⟩, ⟨parts, reads, fits, rfl⟩, rfl⟩

/-- A pattern compiles to what another one compiles to if it reads as the same directives. -/
theorem directives?_of_reads {text text' : String} {directives : List Directive}
    (reads : ∀ parts, Reads text.toList (tokens text.toList) parts →
      ∃ parts', Reads text'.toList (tokens text'.toList) parts'
        ∧ parts'.map Instruction.directive = parts.map Instruction.directive)
    (h : directives? text = some directives) : directives? text' = some directives := by
  obtain ⟨parts, read, fits, rfl⟩ := directives?_eq_some.mp h
  obtain ⟨parts', read', same⟩ := reads parts read
  refine directives?_eq_some.mpr ⟨parts', read', ?_, by rw [same]⟩
  rwa [← Parts.fits_map Instruction.directive, same, Parts.fits_map]

theorem directives?_congr {text text' : String}
    (reads : ∀ parts, Reads text.toList (tokens text.toList) parts →
      ∃ parts', Reads text'.toList (tokens text'.toList) parts'
        ∧ parts'.map Instruction.directive = parts.map Instruction.directive)
    (reads' : ∀ parts', Reads text'.toList (tokens text'.toList) parts' →
      ∃ parts, Reads text.toList (tokens text.toList) parts
        ∧ parts.map Instruction.directive = parts'.map Instruction.directive) :
    directives? text = directives? text' :=
  Option.ext fun _ => ⟨directives?_of_reads reads, directives?_of_reads reads'⟩

/-- Whitespace and comments do not matter. Two patterns with the same tokens, and two patterns with the same tokens but for
comments that interrupt no constant and no label, either both fail to compile or both compile to the same directives. A
pattern with a comment before a constant or before its semicolon does not compile. -/
theorem comments_insignificant (text text' : String) :
    (spelled text.toList (tokens text.toList) = spelled text'.toList (tokens text'.toList) →
      directives? text = directives? text')
    ∧ (spelled text.toList (withoutComments (tokens text.toList))
        = spelled text'.toList (withoutComments (tokens text'.toList)) →
      Uninterrupted (tokens text.toList) → Uninterrupted (tokens text'.toList) → directives? text = directives? text')
    ∧ ((∃ constant ∈ [[], [TokenKind.number], [.str]],
        .equals :: (constant ++ [.comment]) <:+: (tokens text.toList).map Token.kind) → directives? text = none) := by
  refine ⟨fun same => ?_, fun same uninterrupted uninterrupted' => ?_, fun ⟨constant, member, inside⟩ => ?_⟩
  · exact directives?_congr (fun _ read => read.respell same) (fun _ read => read.respell same.symm)
  · refine directives?_congr (fun _ read => ?_) (fun _ read => ?_)
    · obtain ⟨parts, read, directives⟩ := (read.skipped uninterrupted).respell same
      exact ⟨parts, read.of_skipped uninterrupted' rfl, directives⟩
    · obtain ⟨parts, read, directives⟩ := (read.skipped uninterrupted').respell same.symm
      exact ⟨parts, read.of_skipped uninterrupted rfl, directives⟩
  · cases compiled : directives? text with
    | none => rfl
    | some directives =>
      obtain ⟨parts, read, _⟩ := directives?_eq_some.mp compiled
      exact absurd inside (read.no_comment member)

/-- Comments between the directives of a pattern. -/
theorem comments_insignificant_annotated :
    let text := "#\"a\"=5;\x7bn1\x7d2"
    let spaced := "#\"a\" = 5;\n\x7bn1 \x7d2"
    let annotated := "## a\n#\"a\"=5; \x7b##b\nn1\x7d2##"
    let interrupted := "= ##c\n5;"
    spelled text.toList (tokens text.toList) = spelled spaced.toList (tokens spaced.toList)
    ∧ spelled text.toList (withoutComments (tokens text.toList))
      = spelled annotated.toList (withoutComments (tokens annotated.toList))
    ∧ Uninterrupted (tokens text.toList) ∧ Uninterrupted (tokens annotated.toList)
    ∧ [.equals, .comment] <:+: (tokens interrupted.toList).map Token.kind
    ∧ directives? text = directives? spaced ∧ directives? text = directives? annotated ∧ directives? interrupted = none := by
  intro text spaced annotated interrupted
  have plain : tokens text.toList = [⟨.defLabel, ⟨0, 4⟩⟩, ⟨.equals, ⟨4, 5⟩⟩, ⟨.number, ⟨5, 6⟩⟩, ⟨.semicolon, ⟨6, 7⟩⟩,
      ⟨.braceOpen, ⟨7, 8⟩⟩, ⟨.fill, ⟨8, 10⟩⟩, ⟨.braceClose, ⟨10, 12⟩⟩] := by cbv
  have commented : tokens annotated.toList = [⟨.comment, ⟨0, 4⟩⟩, ⟨.defLabel, ⟨5, 9⟩⟩, ⟨.equals, ⟨9, 10⟩⟩,
      ⟨.number, ⟨10, 11⟩⟩, ⟨.semicolon, ⟨11, 12⟩⟩, ⟨.braceOpen, ⟨13, 14⟩⟩, ⟨.comment, ⟨14, 17⟩⟩, ⟨.fill, ⟨18, 20⟩⟩,
      ⟨.braceClose, ⟨20, 22⟩⟩, ⟨.comment, ⟨22, 24⟩⟩] := by cbv
  have same : spelled text.toList (tokens text.toList) = spelled spaced.toList (tokens spaced.toList) := by
    rw [plain]
    cbv
  have skipped : spelled text.toList (withoutComments (tokens text.toList))
      = spelled annotated.toList (withoutComments (tokens annotated.toList)) := by
    rw [plain, commented]
    decide
  have uninterrupted : Uninterrupted (tokens text.toList) := by
    rw [plain]
    decide
  have uninterrupted' : Uninterrupted (tokens annotated.toList) := by
    rw [commented]
    decide
  have inside : [.equals, .comment] <:+: (tokens interrupted.toList).map Token.kind := by
    have all : tokens interrupted.toList = [⟨.equals, ⟨0, 1⟩⟩, ⟨.comment, ⟨2, 5⟩⟩, ⟨.number, ⟨6, 7⟩⟩, ⟨.semicolon, ⟨7, 8⟩⟩] := by
      cbv
    rw [all]
    decide
  exact ⟨same, skipped, uninterrupted, uninterrupted', inside, (comments_insignificant text spaced).1 same,
    (comments_insignificant text annotated).2.1 skipped uninterrupted uninterrupted',
    (comments_insignificant interrupted text).2.2 ⟨[], List.mem_cons_self, inside⟩⟩

/-- A comment before a constant is not skipped, and one before a value takes the value from its label. -/
theorem comments_significant :
    (spelled "=5;".toList (withoutComments (tokens "=5;".toList))
        = spelled "= ## c\n5;".toList (withoutComments (tokens "= ## c\n5;".toList))
      ∧ ((tokens "=5;".toList ++ tokens "= ## c\n5;".toList).all fun token => token.kind != .garbage)
      ∧ directives? "=5;" = some [.control (.assertion (.int 5))] ∧ directives? "= ## c\n5;" = none)
    ∧ (spelled "#\"a\"=5;".toList (withoutComments (tokens "#\"a\"=5;".toList))
        = spelled "#\"a\" ## c\n=5;".toList (withoutComments (tokens "#\"a\" ## c\n=5;".toList))
      ∧ ((tokens "#\"a\"=5;".toList ++ tokens "#\"a\" ## c\n=5;".toList).all fun token => token.kind != .garbage)
      ∧ directives? "#\"a\"=5;" = some [.control (.defLabel "a" (some (.int 5)))]
      ∧ directives? "#\"a\" ## c\n=5;" = some [.control (.defLabel "a" none), .control (.assertion (.int 5))]) := by
  exact ⟨⟨by cbv, by cbv, by cbv, by cbv⟩, by cbv, by cbv, by cbv, by cbv⟩

end BitTemplate.Pattern
