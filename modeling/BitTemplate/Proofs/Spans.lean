import Mathlib
import BitTemplate.Diagnostic.Layout
import BitTemplate.Proofs.Repetition
import BitTemplate.Proofs.Tiling

/-!
Spans point into the pattern. Every span that the compiler makes starts at one token and stops at the same or a later one,
or is empty behind a token that an equals sign or nothing follows. Tokens stand on characters, and what follows an empty
span is one byte wide or the end, so all these spans stand on characters, also when an empty one is widened to be seen.
-/

namespace BitTemplate

/-! ## Boundaries -/

/-- A byte offset between two characters of a text, or at one of its ends. -/
def OnBoundary (source : List Char) (offset : Nat) : Prop :=
  ∃ front back, source = front ++ back ∧ offset = Text.utf8Length front

/-- A span of a text that starts and stops between characters. -/
structure Span.Fits (span : Span) (source : List Char) : Prop where
  start : OnBoundary source span.start
  stop : OnBoundary source span.stop
  ordered : span.start ≤ span.stop

section

variable {source front text rest : List Char} {span : Span}

theorem Span.Cuts.fits (h : span.Cuts source front text rest) : span.Fits source where
  start := ⟨front, text ++ rest, h.whole, h.start⟩
  stop := ⟨front ++ text, rest, by rw [h.whole, List.append_assoc], by rw [h.stop, Text.utf8Length_append]⟩
  ordered := by
    rw [h.start, h.stop]
    exact Nat.le_add_right _ _

/-- A span that is not empty can be seen as it is. -/
theorem Span.Fits.visible (h : span.Fits source) (nonempty : span.start < span.stop) (length : Nat) :
    (Diagnostic.visibleSpan span length).Fits source := by
  rwa [Diagnostic.visibleSpan, if_neg (Nat.ne_of_lt nonempty)]

/-- An empty span can be seen on the character after it, which takes one byte, or it is at the end. -/
theorem visible_empty {offset : Nat} (whole : source = front ++ rest) (here : offset = Text.utf8Length front)
    (next : ∀ c ∈ rest.head?, c.utf8Size = 1) :
    (Diagnostic.visibleSpan ⟨offset, offset⟩ (Text.utf8Length source)).Fits source := by
  have size : Text.utf8Length source = offset + Text.utf8Length rest := by rw [whole, Text.utf8Length_append, here]
  rw [Diagnostic.visibleSpan, if_pos rfl]
  cases rest with
  | nil =>
    have atEnd : min (offset + 1) (Text.utf8Length source) = offset := by
      rw [size]
      exact Nat.min_eq_right (Nat.le_succ _)
    rw [atEnd]
    exact ⟨⟨front, [], whole, here⟩, ⟨front, [], whole, here⟩, Nat.le_refl _⟩
  | cons c rest =>
    have one : c.utf8Size = 1 := next c rfl
    have within : min (offset + 1) (Text.utf8Length source) = offset + 1 := by
      rw [size, Text.utf8Length_cons, one]
      omega
    rw [within]
    refine ⟨⟨front, c :: rest, whole, here⟩, ⟨front ++ [c], rest, by simp [whole], ?_⟩, Nat.le_succ _⟩
    simp [here, one, Text.utf8Length]

/-- Every byte offset of a text of ASCII characters is between characters. -/
theorem onBoundary_of_ascii {offset : Nat} (ascii : ∀ c ∈ text, c.utf8Size = 1) (within : offset ≤ Text.utf8Length text) :
    OnBoundary text offset := by
  induction text generalizing offset with
  | nil =>
    obtain rfl : offset = 0 := Nat.le_zero.mp within
    exact ⟨[], [], rfl, rfl⟩
  | cons c text ih =>
    obtain ⟨one, ascii⟩ := List.forall_mem_cons.mp ascii
    cases offset with
    | zero => exact ⟨[], c :: text, rfl, rfl⟩
    | succ offset =>
      rw [Text.utf8Length_cons, one, Nat.add_comm, Nat.add_le_add_iff_left] at within
      obtain ⟨front, back, rfl, rfl⟩ := ih ascii within
      exact ⟨c :: front, back, rfl, by rw [Text.utf8Length_cons, one, Nat.add_comm]⟩

end

namespace Pattern

/-! ## Operands -/

/-- The operands of a token: where they stand in its text, counted in bytes, and their characters. -/
def TokenKind.operands (kind : TokenKind) (text : List Char) : List (Span × List Char) :=
  let size := Text.utf8Length text
  match kind with
  | .field => [(⟨1, size⟩, text.drop 1)]
  | .fill => [(⟨1, size⟩, text.drop 1)]
  | .mod => [(⟨1, size⟩, text.drop 1)]
  | .modOff => [(⟨1, size⟩, text.drop 1)]
  | .modSet => [(⟨1, size⟩, text.drop 1)]
  | .braceClose => [(⟨1, size⟩, text.drop 1)]
  | .setLabel => [(⟨3, size - 1⟩, between 3 text)]
  | .defLabel => [(⟨2, size - 1⟩, between 2 text)]
  | .matchLabel => [(⟨3, size - 1⟩, between 3 text)]
  | .markerStart => [(⟨3, size - 1⟩, between 3 text)]
  | .markerEnd => [(⟨3, size - 1⟩, between 3 text)]
  | .jump => [(⟨1, 2⟩, (text.drop 1).take 1), (⟨2, size⟩, text.drop 2)]
  | .str => [(⟨1, size - 1⟩, between 1 text)]
  | _ => []

section

variable {text lead operand close : List Char}

theorem utf8Length_of_ascii (ascii : ∀ c ∈ text, c.utf8Size = 1) : Text.utf8Length text = text.length := by
  induction text with
  | nil => rfl
  | cons c text ih =>
    obtain ⟨one, ascii⟩ := List.forall_mem_cons.mp ascii
    rw [Text.utf8Length_cons, one, ih ascii, List.length_cons, Nat.add_comm]

/-- What stands between ASCII characters starts and stops between characters. -/
theorem cuts_of_ascii {size : Nat} (opening : ∀ c ∈ lead, c.utf8Size = 1) (closing : ∀ c ∈ close, c.utf8Size = 1)
    (whole : text = lead ++ (operand ++ close)) (count : close.length = size) :
    Span.Cuts ⟨lead.length, Text.utf8Length text - size⟩ text lead operand close where
  whole := whole
  start := (utf8Length_of_ascii opening).symm
  stop := by
    show Text.utf8Length text - size = _
    rw [whole, Text.utf8Length_append, Text.utf8Length_append, utf8Length_of_ascii closing, count]
    omega

/-- The lead, the quotes and what stands between them make up a quoted text. -/
theorem quotedAfter_eq {start : List Char} {count : Nat} (belongs : text ∈ (quotedAfter start).language)
    (size : start.length + 1 = count) : text = (start ++ ['"']) ++ (between count text ++ ['"']) := by
  rw [quotedAfter, Text.Regular.language, Text.Regular.language_word, Language.mem_mul] at belongs
  obtain ⟨_, rfl, rest, belongs, rfl⟩ := belongs
  rw [Text.Regular.language, Text.Regular.language_char, Language.mem_mul] at belongs
  obtain ⟨body, _, _, rfl, rfl⟩ := belongs
  rw [between, List.drop_left' (by simp [size]), List.dropLast_concat]

/-- The text between quotes, after a lead of ASCII characters. -/
theorem cuts_between {start : List Char} {count : Nat} (ascii : ∀ c ∈ start, c.utf8Size = 1)
    (belongs : text ∈ (quotedAfter start).language) (size : start.length + 1 = count) :
    ∃ front rest, Span.Cuts ⟨count, Text.utf8Length text - 1⟩ text front (between count text) rest := by
  have quote : ∀ c ∈ ['"'], c.utf8Size = 1 := List.forall_mem_singleton.mpr rfl
  have lead : (start ++ ['"']).length = count := by simp [size]
  have cuts := cuts_of_ascii (List.forall_mem_append.mpr ⟨ascii, quote⟩) quote (quotedAfter_eq belongs size) rfl
  rw [lead] at cuts
  exact ⟨start ++ ['"'], ['"'], cuts⟩

/-- The text after its first character, which is one of some ASCII characters. -/
theorem cuts_drop {test : Char → Bool} {r : Text.Regular} (ascii : ∀ c, test c = true → c.utf8Size = 1)
    (belongs : text ∈ (Text.Regular.seq (.one test) r).language) :
    ∃ front rest, Span.Cuts ⟨1, Text.utf8Length text⟩ text front (text.drop 1) rest := by
  obtain ⟨c, rest, rfl, passes, _⟩ := Text.Regular.mem_language_seq_one.mp belongs
  have cuts : Span.Cuts ⟨[c].length, Text.utf8Length (c :: rest) - 0⟩ (c :: rest) [c] rest [] :=
    cuts_of_ascii (by simpa using ascii c passes) (by simp) (by simp) rfl
  exact ⟨[c], [], cuts⟩

theorem ascii_of_contains {chars : List Char} (ascii : ∀ c ∈ chars, c.utf8Size = 1) (c : Char)
    (member : chars.contains c = true) : c.utf8Size = 1 :=
  ascii c (List.contains_iff_mem.mp member)

theorem ascii_of_beq {d : Char} (ascii : d.utf8Size = 1) (c : Char) (same : (c == d) = true) : c.utf8Size = 1 :=
  eq_of_beq same ▸ ascii

theorem ascii_of_range {low high c : Char} (inside : (low ≤ c && c ≤ high) = true) (ascii : high.val ≤ 127) :
    c.utf8Size = 1 := by
  simp only [Bool.and_eq_true, decide_eq_true_eq] at inside
  exact Char.utf8Size_eq_one_iff.mpr (UInt32.le_trans inside.2 ascii)

theorem ascii_of_letter (c : Char) (letter : (('a' ≤ c && c ≤ 'z') || ('A' ≤ c && c ≤ 'Z')) = true) :
    c.utf8Size = 1 := by
  rcases (Bool.or_eq_true _ _).mp letter with inside | inside
  · exact ascii_of_range inside (by decide)
  · exact ascii_of_range inside (by decide)

/-- Operands start and stop between characters. -/
theorem operands_cut {kind : TokenKind} (belongs : text ∈ kind.texts.language) :
    ∀ place ∈ kind.operands text, ∃ front rest, place.1.Cuts text front place.2 rest := by
  cases kind with
  | field | fill | modOff | modSet =>
    exact List.forall_mem_singleton.mpr (cuts_drop (ascii_of_contains (by simp [Char.utf8Size_eq_one_iff])) belongs)
  | mod =>
    refine List.forall_mem_singleton.mpr ?_
    rcases Language.mem_add _ _ _ |>.mp belongs with belongs | belongs
    · exact cuts_drop (ascii_of_contains (by simp [Char.utf8Size_eq_one_iff])) belongs
    · exact cuts_drop (ascii_of_beq rfl) belongs
  | braceClose => exact List.forall_mem_singleton.mpr (cuts_drop (ascii_of_beq rfl) belongs)
  | setLabel | defLabel | matchLabel | markerStart | markerEnd | str =>
    exact List.forall_mem_singleton.mpr (cuts_between (by simp [Char.utf8Size_eq_one_iff]) belongs rfl)
  | jump =>
    obtain ⟨first, rest, rfl, j, belongs⟩ := Text.Regular.mem_language_seq_one.mp belongs
    obtain ⟨second, rest, rfl, letter, _⟩ := Text.Regular.mem_language_seq_one.mp belongs
    have one : first.utf8Size = 1 := ascii_of_beq rfl first j
    have two : second.utf8Size = 1 := ascii_of_letter second letter
    have origin : Span.Cuts ⟨1, 2⟩ (first :: second :: rest) [first] [second] rest :=
      ⟨rfl, by simp [Text.utf8Length, one], by simp [Text.utf8Length, one, two]⟩
    have digits : Span.Cuts ⟨[first, second].length, Text.utf8Length (first :: second :: rest) - 0⟩
        (first :: second :: rest) [first, second] rest [] :=
      cuts_of_ascii (by simp [one, two]) (by simp) (by simp) rfl
    exact List.forall_mem_cons.mpr ⟨⟨_, _, origin⟩, List.forall_mem_singleton.mpr ⟨_, _, digits⟩⟩
  | _ => exact List.forall_mem_nil _

end

/-- What a token means depends on its first character and its operands only. -/
theorem single_of_operands {kind : TokenKind} {text text' : List Char} (head : text.head? = text'.head?)
    (operands : (kind.operands text).map Prod.snd = (kind.operands text').map Prod.snd) :
    single kind text = single kind text' := by
  have whole (rest : text.drop 1 = text'.drop 1) : text = text' := by
    cases text <;> cases text' <;> simp_all
  cases kind with
  | field | fill | mod | modOff | modSet | braceClose => rw [whole (List.cons.inj operands).1]
  | setLabel | defLabel | matchLabel =>
    have same : between _ text = between _ text' := (List.cons.inj operands).1
    simp only [single, labelName, same]
  | markerStart | markerEnd =>
    have same : between _ text = between _ text' := (List.cons.inj operands).1
    simp only [single, marker, same]
  | jump =>
    obtain ⟨first, operands⟩ := List.cons.inj operands
    have digits : text.drop 2 = text'.drop 2 := (List.cons.inj operands).1
    have origin : ((text.drop 1).take 1).head? = ((text'.drop 1).take 1).head? := congrArg List.head? first
    rw [List.head?_take, List.head?_take, if_neg Nat.one_ne_zero, if_neg Nat.one_ne_zero] at origin
    simp only [single, jump, origin, digits]
  | _ => rfl

/-! ## Spans of tokens -/

/-- The span of a token, or from the start of a token to the end of a later one. -/
inductive Spanned (tokens : List Token) : Span → Prop
  | one {token : Token} (member : token ∈ tokens) : Spanned tokens token.span
  | two {first last : Token} (order : [first, last].Sublist tokens) : Spanned tokens ⟨first.span.start, last.span.stop⟩

/-- An empty span behind a token that an equals sign or nothing follows. -/
inductive Behind (tokens : List Token) : Span → Prop
  | last {token : Token} {rest : List Token} (place : token :: rest <:+ tokens)
      (next : ∀ equals ∈ rest.head?, equals.kind = .equals) : Behind tokens ⟨token.span.stop, token.span.stop⟩

/-- An error about some tokens. -/
def Points (source : List Char) (tokens : List Token) (error : PatternError) : Prop :=
  ∃ span cause, error = errorAt source span cause ∧ (Spanned tokens span ∨ Behind tokens span)

section

variable {source : List Char} {tokens rest more : List Token} {token : Token} {span : Span} {error : PatternError}

theorem Spanned.mono (h : Spanned tokens span) (sub : tokens.Sublist more) : Spanned more span := by
  cases h with
  | one member => exact .one (sub.subset member)
  | two order => exact .two (order.trans sub)

theorem Points.mono (h : Points source tokens error) (sub : tokens <:+ more) : Points source more error := by
  obtain ⟨span, cause, made, spanned | ⟨place, next⟩⟩ := h
  · exact ⟨span, cause, made, .inl (spanned.mono sub.sublist)⟩
  · exact ⟨_, cause, made, .inr (.last (place.trans sub) next)⟩

theorem Item.spanned {front : List Token} {instruction : Instruction} (h : Item source front instruction) :
    Spanned front instruction.span := by
  cases h with
  | single means => exact .one List.mem_cons_self
  | assertion equal denotes close => exact .two (by simp)
  | label define named equal denotes close => exact .two (by simp)

/-! ## Errors -/

theorem constantAt_error (h : constantAt source token = .error error) :
    ∃ cause, error = errorAt source token.span cause := by
  simp only [constantAt] at h
  split at h
  · obtain ⟨cause, _, rfl⟩ := except_mapError_error.mp h
    exact ⟨cause, rfl⟩
  · cases h
  · cases h
    exact ⟨_, rfl⟩

/-- A missing constant is missed where the equals sign ends, a missing semicolon where the constant ends. -/
theorem readLiteral_error {after : Nat} (h : readLiteral source after tokens = .error error) :
    (tokens = [] ∧ ∃ cause, error = errorAt source ⟨after, after⟩ cause) ∨ Points source tokens error := by
  match tokens with
  | [] =>
    cases h
    exact .inl ⟨rfl, _, rfl⟩
  | token :: rest =>
    rw [readLiteral_cons, except_bind_error] at h
    rcases h with h | ⟨literal, _, h⟩
    · obtain ⟨cause, made⟩ := constantAt_error h
      exact .inr ⟨_, cause, made, .inl (.one List.mem_cons_self)⟩
    · cases rest with
      | nil =>
        cases h
        exact .inr ⟨_, _, rfl, .inr (.last List.suffix_rfl (by simp))⟩
      | cons semicolon rest =>
        dsimp only at h
        split at h
        · cases h
        · cases h
          exact .inr ⟨_, _, rfl, .inl (.one (List.mem_cons_of_mem _ List.mem_cons_self))⟩

theorem readStatement_error (h : readStatement source token rest = .error error) :
    Points source (token :: rest) error := by
  simp only [readStatement] at h
  split at h
  · rcases except_bind_error.mp h with h | ⟨_, _, ⟨⟩⟩
    rcases readLiteral_error h with ⟨rfl, cause, made⟩ | points
    · exact ⟨_, cause, made, .inr (.last List.suffix_rfl (by simp))⟩
    · exact points.mono (List.suffix_cons _ _)
  · rcases except_bind_error.mp h with h | ⟨name, _, h⟩
    · obtain ⟨cause, _, rfl⟩ := except_mapError_error.mp h
      exact ⟨_, cause, rfl, .inl (.one List.mem_cons_self)⟩
    · rcases except_bind_error.mp h with h | ⟨_, _, ⟨⟩⟩
      rcases readLiteral_error h with ⟨rfl, cause, made⟩ | points
      · exact ⟨_, cause, made, .inr (.last List.suffix_rfl (by simp))⟩
      · exact points.mono ((List.suffix_cons _ _).trans (List.suffix_cons _ _))
  · rcases except_bind_error.mp h with h | ⟨_, _, ⟨⟩⟩
    obtain ⟨cause, _, rfl⟩ := except_mapError_error.mp h
    exact ⟨_, cause, rfl, .inl (.one List.mem_cons_self)⟩

/-- The span of a statement is the one of its tokens; an end of a block is a single token. -/
theorem readStatement_spanned {statement : Statement}
    (h : readStatement source token rest = .ok (statement, span, more)) :
    ∃ front, token :: rest = front ++ more ∧ Spanned front span
      ∧ ((∃ directive, statement = .directive directive) ∨ front = [token] ∧ span = token.span) := by
  cases statement with
  | directive directive =>
    obtain ⟨front, split, item, _⟩ := readStatement_directive.mp h
    exact ⟨front, split, item.spanned, .inl ⟨directive, rfl⟩⟩
  | openBlock =>
    obtain ⟨_, rfl, rfl⟩ := readStatement_openBlock.mp h
    exact ⟨[token], rfl, .one List.mem_cons_self, .inr ⟨rfl, rfl⟩⟩
  | closeBlock text =>
    obtain ⟨_, _, rfl, rfl⟩ := readStatement_closeBlock.mp h
    exact ⟨[token], rfl, .one List.mem_cons_self, .inr ⟨rfl, rfl⟩⟩
  | comment =>
    obtain ⟨_, rfl, rfl⟩ := readStatement_comment.mp h
    exact ⟨[token], rfl, .one List.mem_cons_self, .inr ⟨rfl, rfl⟩⟩

end

/-! ## Open blocks -/

/-- The spans of the braces that are open. -/
def Layers.openings (layers : Layers) : List Span :=
  layers.blocks.map Block.opening

@[simp] theorem Layers.openings_extend (layers : Layers) (more : List Instruction) :
    (layers.extend more).openings = layers.openings := by
  obtain ⟨outside, _ | ⟨⟨opening, body⟩, blocks⟩⟩ := layers <;> rfl

section

variable {source : List Char} {layers next : Layers} {statement : Statement} {span : Span} {error : PatternError}

/-- Only an opening brace opens a block. -/
theorem addStatement_openings (h : addStatement source layers statement span = .ok next) :
    next.openings ⊆ layers.openings ∨ statement = .openBlock ∧ next.openings = span :: layers.openings := by
  cases statement with
  | directive directive =>
    obtain ⟨_, rfl⟩ := addStatement_directive_ok.mp h
    exact .inl (by simp)
  | openBlock =>
    cases h
    exact .inr ⟨rfl, rfl⟩
  | closeBlock text =>
    obtain ⟨outside, _ | ⟨block, blocks⟩⟩ := layers
    · cases h
    · obtain ⟨_, _, _, _, rfl⟩ := closeBlock_ok.mp h
      rw [Layers.openings_extend]
      exact .inl (List.subset_cons_self _ _)
  | comment =>
    cases h
    exact .inl (List.Subset.refl _)

/-- What goes wrong with a statement is about its span, or about the whole block that it closes. -/
theorem addStatement_error (h : addStatement source layers statement span = .error error) :
    ∃ cause, error = errorAt source span cause
      ∨ (∃ text, statement = .closeBlock text)
        ∧ ∃ opening ∈ layers.openings, error = errorAt source ⟨opening.start, span.stop⟩ cause := by
  cases statement with
  | directive directive =>
    obtain ⟨cause, _, rfl⟩ := except_mapError_error.mp h
    exact ⟨cause, .inl rfl⟩
  | openBlock => cases h
  | closeBlock text =>
    simp only [addStatement, closeBlock] at h
    split at h
    · cases h
      exact ⟨_, .inl rfl⟩
    · rename_i block blocks here
      have opened : block.opening ∈ layers.openings := by simp [Layers.openings, here]
      split at h
      · cases h
        exact ⟨_, .inr ⟨⟨text, rfl⟩, block.opening, opened, rfl⟩⟩
      · rcases except_bind_error.mp h with h | ⟨count, _, h⟩
        · obtain ⟨cause, _, rfl⟩ := except_mapError_error.mp h
          exact ⟨cause, .inl rfl⟩
        · split at h
          · cases h
            exact ⟨_, .inl rfl⟩
          · obtain ⟨cause, _, rfl⟩ := except_mapError_error.mp h
            exact ⟨cause, .inl rfl⟩
  | comment => cases h

end

/-! ## Runs -/

section

variable {source : List Char} {all before tokens rest : List Token} {token : Token} {layers next : Layers}
  {statement : Statement} {span : Span} {error : PatternError}

/-- The open braces are among the tokens so far. -/
theorem openings_step (opened : layers.openings ⊆ before.map Token.span)
    (read : readStatement source token tokens = .ok (statement, span, rest))
    (added : addStatement source layers statement span = .ok next) :
    ∃ front, token :: tokens = front ++ rest ∧ next.openings ⊆ (before ++ front).map Token.span := by
  obtain ⟨front, split, _, single⟩ := readStatement_spanned read
  refine ⟨front, split, ?_⟩
  rw [List.map_append]
  rcases addStatement_openings added with fewer | ⟨rfl, more⟩
  · exact List.subset_append_of_subset_left _ (List.Subset.trans fewer opened)
  · rcases single with ⟨_, ⟨⟩⟩ | ⟨rfl, rfl⟩
    rw [more]
    exact List.cons_subset.mpr ⟨by simp, List.subset_append_of_subset_left _ opened⟩

theorem points_step (opened : layers.openings ⊆ before.map Token.span)
    (read : readStatement source token tokens = .ok (statement, span, rest))
    (failed : addStatement source layers statement span = .error error) :
    Points source (before ++ token :: tokens) error := by
  obtain ⟨front, split, spanned, single⟩ := readStatement_spanned read
  obtain ⟨cause, rfl | ⟨⟨text, rfl⟩, opening, member, rfl⟩⟩ := addStatement_error failed
  · rw [split]
    exact ⟨span, cause, rfl, .inl (spanned.mono ((List.sublist_append_left front rest).trans (List.sublist_append_right _ _)))⟩
  · rcases single with ⟨_, ⟨⟩⟩ | ⟨_, rfl⟩
    obtain ⟨first, earlier, rfl⟩ := List.mem_map.mp (opened member)
    have order : [first, token].Sublist (before ++ token :: tokens) :=
      (List.singleton_sublist.mpr earlier).append (List.singleton_sublist.mpr List.mem_cons_self)
    exact ⟨_, cause, rfl, .inl (.two order)⟩

/-- The open braces stay among the tokens so far as the tokens are gone through, and every error is about some tokens. -/
theorem addAll_points (split : all = before ++ tokens) (opened : layers.openings ⊆ before.map Token.span) :
    (∀ last, addAll source layers tokens = .ok last → last.openings ⊆ all.map Token.span)
      ∧ ∀ error, addAll source layers tokens = .error error → Points source all error := by
  induction length : tokens.length using Nat.strongRecOn generalizing before layers tokens with
  | ind n ih =>
    subst length
    cases tokens with
    | nil =>
      refine ⟨fun last run => ?_, fun error run => nomatch run⟩
      cases run
      rwa [split, List.append_nil]
    | cons token tokens =>
      have later {statement : Statement} {span : Span} {rest : List Token} {next : Layers}
          (read : readStatement source token tokens = .ok (statement, span, rest))
          (added : addStatement source layers statement span = .ok next) :
          (∀ last, addAll source next rest = .ok last → last.openings ⊆ all.map Token.span)
            ∧ ∀ error, addAll source next rest = .error error → Points source all error := by
        obtain ⟨front, tiles, opened⟩ := openings_step opened read added
        have fewer : rest.length < (token :: tokens).length := Nat.lt_succ_of_le (readStatement_suffix read).length_le
        exact ih _ fewer (by rw [split, tiles, List.append_assoc]) opened rfl
      refine ⟨fun last run => ?_, fun error run => ?_⟩
      · obtain ⟨statement, span, rest, next, read, added, run⟩ := addAll_cons_ok.mp run
        exact (later read added).1 last run
      · rw [addAll_cons] at run
        rcases except_bind_error.mp run with failed | ⟨⟨statement, span, rest⟩, read, run⟩
        · exact (readStatement_error failed).mono ⟨before, split.symm⟩
        · rcases except_bind_error.mp run with failed | ⟨next, added, run⟩
          · exact split ▸ points_step opened read failed
          · exact (later read added).2 error run

end

/-- Every error is about some tokens. -/
theorem compile_points {text : String} {error : PatternError} (h : compile text = .error error) :
    Points text.toList (tokens text.toList) error := by
  have points := @addAll_points text.toList (tokens text.toList) [] (tokens text.toList) ⟨#[], []⟩ rfl (List.Subset.refl _)
  rcases except_bind_error.mp h with failed | ⟨⟨outside, blocks⟩, run, h⟩
  · exact points.2 error failed
  · cases blocks with
    | nil => cases h
    | cons block blocks =>
      cases h
      obtain ⟨token, member, same⟩ := List.mem_map.mp (points.1 _ run List.mem_cons_self)
      exact ⟨_, _, rfl, .inl (same ▸ .one member)⟩

/-! ## Places of tokens -/

section

variable {source : List Char} {token : Token} {span : Span}

theorem token_fits (member : token ∈ tokens source) : token.span.Fits source ∧ token.span.start < token.span.stop := by
  obtain ⟨front, text, rest, cuts, ⟨c, more, rfl, _⟩, _⟩ := token_cuts member
  refine ⟨cuts.fits, ?_⟩
  have := c.utf8Size_pos
  rw [cuts.start, cuts.stop, Text.utf8Length_cons]
  omega

/-- Spans of tokens are not empty. -/
theorem Spanned.fits (h : Spanned (tokens source) span) : span.Fits source ∧ span.start < span.stop := by
  cases h with
  | one member => exact token_fits member
  | @two first last order =>
    obtain ⟨firstFits, opens⟩ := token_fits (order.subset (by simp : first ∈ _))
    obtain ⟨lastFits, closes⟩ := token_fits (order.subset (by simp : last ∈ _))
    have ordered := (tiles_tokens source).pairwise.sublist order
    have apart : first.span.stop ≤ last.span.start := (List.pairwise_cons.mp ordered).1 last List.mem_cons_self
    have nonempty : first.span.start < last.span.stop := by omega
    exact ⟨⟨firstFits.start, lastFits.stop, Nat.le_of_lt nonempty⟩, nonempty⟩

theorem utf8Size_separator {c : Char} (separates : isSeparator c = true) : c.utf8Size = 1 := by
  simp only [isSeparator, Bool.or_eq_true, beq_iff_eq] at separates
  rcases separates with (((rfl | rfl) | rfl) | rfl) | rfl <;> rfl

/-- Where no token but an equals sign comes next, the next character takes one byte. -/
theorem Tiles.head_ascii {offset : Nat} {rest : List Char} {more : List Token} (h : Tiles offset rest more)
    (next : ∀ equals ∈ more.head?, equals.kind = .equals) : ∀ c ∈ rest.head?, c.utf8Size = 1 := by
  cases h with
  | done separate => exact fun c head => utf8Size_separator (separate c (List.mem_of_mem_head? head))
  | @token _ _ blanks text rest token tokens whole separate _ suits _ _ _ =>
    intro c head
    cases blanks with
    | nil =>
      have equal : token.kind = .equals := next token rfl
      have belongs : text ∈ (TokenKind.texts .equals).language := equal ▸ (suits.1 (by simp [equal])).belongs
      rw [TokenKind.texts, Text.Regular.language_char] at belongs
      obtain rfl : text = ['='] := belongs
      cases whole
      cases head
      rfl
    | cons blank blanks =>
      cases whole
      cases head
      exact utf8Size_separator (separate _ List.mem_cons_self)

theorem Behind.fits (h : Behind (tokens source) span) :
    span.Fits source ∧ (Diagnostic.visibleSpan span (Text.utf8Length source)).Fits source := by
  obtain ⟨place, next⟩ := h
  obtain ⟨front, text, rest, cuts, _, _, _, more⟩ := (tiles_tokens source).of_suffix (by rfl : 0 = Text.utf8Length []) place
  have stop := cuts.fits.stop
  have here := cuts.stop
  rw [← Text.utf8Length_append] at here
  have whole : source = (front ++ text) ++ rest := by simpa using cuts.whole
  exact ⟨⟨stop, stop, Nat.le_refl _⟩, visible_empty whole here (more.head_ascii next)⟩

end

/-! ## Patterns -/

theorem Reads.spanned {source : List Char} {tokens : List Token} {parts : Parts Instruction} (h : Reads source tokens parts) :
    ∀ instruction ∈ parts.expand,
      Spanned tokens instruction.span ∧ instruction.token = String.ofList (instruction.span.of source) := by
  intro instruction member
  obtain ⟨before, front, rest, rfl, item, _⟩ := h.exists_item instruction member
  have within : front.Sublist (before ++ (front ++ rest)) :=
    (List.sublist_append_left front rest).trans (List.sublist_append_right before _)
  refine ⟨item.spanned.mono within, ?_⟩
  obtain ⟨span, directive, rfl⟩ := item.exists_directive
  rfl

/-- Spans point into the pattern. The compiler ends on every pattern. Whatever it cuts out on its way starts and stops
between characters: tokens, their operands, and statements; of a token it looks at nothing but the first character and the
operands. The text of an instruction and that of an error is the one at its span, and the span of an error stays in the
pattern, between characters, when it is widened to be seen. -/
theorem spans_fit (text : String) :
    (∀ fuel, (tokens text.toList).length ≤ fuel →
      addTokens text.toList fuel ⟨#[], []⟩ (tokens text.toList) = addAll text.toList ⟨#[], []⟩ (tokens text.toList))
    ∧ (∀ token ∈ tokens text.toList, token.span.Fits text.toList ∧ token.span.start < token.span.stop
      ∧ ∀ place ∈ token.kind.operands (token.text text.toList),
        (∃ front rest, place.1.Cuts (token.text text.toList) front place.2 rest)
          ∧ ((∀ c ∈ place.2, c.utf8Size = 1) → ∀ offset ≤ Text.utf8Length place.2, OnBoundary place.2 offset))
    ∧ (∀ kind (first second : List Char), first.head? = second.head? →
      (TokenKind.operands kind first).map Prod.snd = (TokenKind.operands kind second).map Prod.snd →
      single kind first = single kind second)
    ∧ (∀ token rest statement span more, token :: rest <:+ tokens text.toList →
      readStatement text.toList token rest = .ok (statement, span, more) → span.Fits text.toList)
    ∧ (∀ program, compile text = .ok program → ∀ instruction ∈ program.instructions,
      instruction.span.Fits text.toList ∧ instruction.token = String.ofList (instruction.span.of text.toList))
    ∧ ∀ error, compile text = .error error →
      error.span.Fits text.toList ∧ error.token = String.ofList (error.span.of text.toList)
        ∧ (Diagnostic.visibleSpan error.span (Text.utf8Length text.toList)).Fits text.toList := by
  refine ⟨fun fuel enough => addTokens_fuel enough (Nat.le_refl _),
    fun token member => ⟨(token_fits member).1, (token_fits member).2, ?_⟩, fun _ _ _ => single_of_operands,
    fun token rest statement span more place read => ?_, fun program compiled instruction member => ?_,
    fun error failed => ?_⟩
  · obtain ⟨front, here, rest, cuts, _, suits⟩ := token_cuts member
    rw [Token.text, cuts.of_eq]
    intro place operand
    refine ⟨?_, fun ascii offset => onBoundary_of_ascii ascii⟩
    by_cases garbage : token.kind = .garbage
    · rw [garbage] at operand
      cases operand
    · exact operands_cut (suits.1 garbage).belongs place operand
  · obtain ⟨front, split, spanned, _⟩ := readStatement_spanned read
    have within : front.Sublist (tokens text.toList) := ((List.prefix_append front more).sublist).trans (split ▸ place.sublist)
    exact (spanned.mono within).fits.1
  · obtain ⟨parts, reads, _, same⟩ := compile_iff.mp compiled
    obtain ⟨spanned, spelled⟩ := reads.spanned instruction (same ▸ member)
    exact ⟨spanned.fits.1, spelled⟩
  · obtain ⟨span, cause, rfl, spanned | behind⟩ := compile_points failed
    · obtain ⟨fits, nonempty⟩ := spanned.fits
      exact ⟨fits, rfl, fits.visible nonempty _⟩
    · exact ⟨behind.fits.1, rfl, behind.fits.2⟩

example : compile "#\"é\" =" = .error ⟨.expectedLiteral, ⟨5, 5⟩, ""⟩ ∧ Diagnostic.visibleSpan ⟨5, 5⟩ 7 = ⟨5, 6⟩ :=
  ⟨by cbv, by decide⟩

end Pattern

end BitTemplate
