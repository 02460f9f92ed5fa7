import BitTemplate.Proofs.Languages
import BitTemplate.Proofs.Tokens

/-!
Tokens tile a pattern. The scan stops only where no kind of token can go on, so the text that it finds is the longest one
there, and where it finds none there is none. Tokens and the separators between them make up the whole pattern, and so
they still do when neighbouring errors are made one.
-/

namespace BitTemplate

/-- A span of a source that starts and stops between characters: it comes after `front` and covers `text`. -/
structure Span.Cuts (span : Span) (source front text rest : List Char) : Prop where
  whole : source = front ++ (text ++ rest)
  start : span.start = Text.utf8Length front
  stop : span.stop = Text.utf8Length front + Text.utf8Length text

/-- Whether a byte is in a span. -/
def Span.Covers (span : Span) (place : Nat) : Prop :=
  span.start ≤ place ∧ place < span.stop

theorem Span.Cuts.of_eq {span : Span} {source front text rest : List Char} (h : span.Cuts source front text rest) :
    span.of source = text := by
  obtain ⟨start, stop⟩ := span
  obtain ⟨rfl, rfl, rfl⟩ := h
  exact Span.of_append front text rest

namespace Pattern

/-! ## Longest matches -/

/-- A text belongs to a kind, and no longer text that starts where it starts belongs to any kind. -/
structure TokenKind.Longest (kind : TokenKind) (text rest : List Char) : Prop where
  belongs : text ∈ kind.texts.language
  longest : ∀ other longer, longer <+: text ++ rest → text.length < longer.length →
    longer ∉ (TokenKind.texts other).language

/-- No text that starts here belongs to a kind. -/
def Unmatched (text : List Char) : Prop :=
  ∀ kind start, start <+: text → start ∉ (TokenKind.texts kind).language

/-- No text of a kind that starts here is longer than the longest token so far. -/
def Match.Bounds (found : Match) (text : List Char) : Prop :=
  ∀ kind start, start <+: text → start ∈ (TokenKind.texts kind).language →
    ∃ best length, found.best = some (best, length) ∧ start.length ≤ length

/-- Every kind with a text that starts with what was read is still there. -/
def Complete (live : List (TokenKind × Text.Regular)) (read : List Char) : Prop :=
  ∀ kind tail, read ++ tail ∈ (TokenKind.texts kind).language → (kind, kind.texts.afterAll read) ∈ live

theorem Complete.advance {live : List (TokenKind × Text.Regular)} {read : List Char} (h : Complete live read)
    (c : Char) : Complete (advance c live) (read ++ [c]) := by
  intro kind tail belongs
  have before : (kind, kind.texts.afterAll read) ∈ live := by
    refine h kind (c :: tail) ?_
    rwa [List.append_cons]
  have next : kind.texts.afterAll (read ++ [c]) = (kind.texts.afterAll read).after c := by
    rw [Text.Regular.afterAll, List.foldl_append]
    rfl
  have inhabited : ((kind.texts.afterAll read).after c).isVoid = false := by
    by_contra isVoid
    rw [Bool.not_eq_false, ← next] at isVoid
    exact Text.Regular.notMem_of_isVoid_afterAll isVoid belongs
  rw [next, Pattern.advance, List.mem_filter]
  exact ⟨List.mem_map_of_mem before, by simp [inhabited]⟩

theorem TokenKind.mem_all {kind : TokenKind} {text : List Char} (belongs : text ∈ kind.texts.language) :
    kind ∈ TokenKind.all := by
  cases kind with
  | garbage => exact absurd belongs (Language.notMem_zero text)
  | _ => decide

theorem complete_all : Complete (TokenKind.all.map fun kind => (kind, kind.texts)) [] :=
  fun _ _ belongs => List.mem_map_of_mem (TokenKind.mem_all belongs)

/-- The scan goes on as long as some text of a kind starts with what was read. -/
theorem extend_bounds {live : List (TokenKind × Text.Regular)} {found : Match} {read rest : List Char}
    (complete : Complete live read) (viable : found.viable = read.length) (bounds : found.Bounds read) :
    (extend live found rest).Bounds (read ++ rest) := by
  induction rest generalizing live found read with
  | nil =>
    rw [List.append_nil]
    exact bounds
  | cons c rest ih =>
    have next := complete.advance c
    rw [List.append_cons, extend]
    split
    · -- no kind goes on with this character, so the texts that start here are those seen before
      rename_i stuck
      intro kind start isPrefix belongs
      rcases List.prefix_or_prefix_of_prefix isPrefix (List.prefix_append (read ++ [c]) rest) with short | long
      · rcases List.prefix_concat_iff.mp short with rfl | short
        · have member := next kind [] (by rwa [List.append_nil])
          rw [List.isEmpty_iff.mp stuck] at member
          cases member
        · exact bounds kind start short belongs
      · obtain ⟨tail, rfl⟩ := long
        have member := next kind tail belongs
        rw [List.isEmpty_iff.mp stuck] at member
        cases member
    · refine ih next (by simp [viable]) fun kind start isPrefix belongs => ?_
      rcases List.prefix_concat_iff.mp isPrefix with rfl | short
      · have member := next kind [] (by rwa [List.append_nil])
        have accepted : (kind.texts.afterAll (read ++ [c])).hasNil = true := Text.Regular.accepts_iff.mpr belongs
        cases first : (advance c live).find? fun entry => entry.2.hasNil with
        | none => exact absurd accepted (List.find?_eq_none.mp first _ member)
        | some entry => exact ⟨entry.1, found.viable + 1, rfl, by simp [viable]⟩
      · obtain ⟨best, length, was, enough⟩ := bounds kind start short belongs
        cases (advance c live).find? fun entry => entry.2.hasNil with
        | none => exact ⟨best, length, was, enough⟩
        | some entry =>
          have bound := short.length_le
          exact ⟨entry.1, found.viable + 1, rfl, by omega⟩

/-- What the scan finds at the start of a text, and what is there if it finds nothing. -/
theorem scan_longest {c : Char} {rest : List Char} {kind : TokenKind} {more : Nat}
    (h : scan (c :: rest) = (kind, more)) :
    (kind ≠ .garbage → kind.Longest (c :: rest.take more) (rest.drop more))
      ∧ (kind = .garbage → Unmatched (c :: rest)) := by
  have bounds : (extend (TokenKind.all.map fun kind => (kind, kind.texts)) ⟨none, 0⟩ (c :: rest)).Bounds (c :: rest) := by
    refine @extend_bounds _ ⟨none, 0⟩ [] (c :: rest) complete_all rfl fun kind start isPrefix belongs => ?_
    obtain rfl := List.prefix_nil.mp isPrefix
    have empty : (TokenKind.texts kind).hasNil = true := Text.Regular.hasNil_iff.mpr belongs
    cases kind <;> cases empty
  have accepts := fun read : kind ≠ .garbage => Text.Regular.accepts_iff.mp (scan_accepts h read)
  simp only [scan] at h
  split at h
  · rename_i kind' length best
    cases h
    refine ⟨fun read => ⟨accepts read, fun other longer isPrefix long belongs => ?_⟩, ?_⟩
    · rw [List.cons_append, List.take_append_drop] at isPrefix
      obtain ⟨_, bound, same, enough⟩ := bounds other longer isPrefix belongs
      rw [best] at same
      cases same
      have whole := isPrefix.length_le
      simp only [List.length_cons, List.length_take] at long whole
      omega
    · rintro rfl
      obtain ⟨_, accepted⟩ := @extend_holds _ ⟨none, 0⟩ [] (c :: rest) (by simp [Text.Regular.afterAll]) rfl
        (by simp [Match.Holds]) _ length best
      exact absurd (Text.Regular.accepts_iff.mp accepted) (Language.notMem_zero _)
  · rename_i none
    cases h
    refine ⟨fun read => absurd rfl read, fun _ other start isPrefix belongs => ?_⟩
    obtain ⟨_, _, some, _⟩ := bounds other start isPrefix belongs
    rw [none] at some
    cases some

/-- The scan finds the longest text of a kind, when that text belongs to no other kind. -/
theorem scan_of_longest {c : Char} {more rest : List Char} {kind : TokenKind} (longest : kind.Longest (c :: more) rest)
    (only : ∀ other, c :: more ∈ (TokenKind.texts other).language → other = kind) :
    ∃ size, scan (c :: (more ++ rest)) = (kind, size) ∧ (more ++ rest).take size = more
      ∧ (more ++ rest).drop size = rest := by
  obtain ⟨found, size, scanned⟩ : ∃ found size, scan (c :: (more ++ rest)) = (found, size) := ⟨_, _, rfl⟩
  obtain ⟨matched, unmatched⟩ := scan_longest scanned
  have isPrefix : c :: more <+: c :: (more ++ rest) := List.prefix_append (c :: more) rest
  have read : found ≠ .garbage := fun garbage => unmatched garbage kind _ isPrefix longest.belongs
  have found' := matched read
  have taken : c :: (more ++ rest).take size <+: c :: (more ++ rest) :=
    List.cons_prefix_cons.mpr ⟨rfl, List.take_prefix size _⟩
  have notLonger : ¬ (c :: more).length < (c :: (more ++ rest).take size).length := fun less =>
    longest.longest found _ taken less found'.belongs
  have notShorter : ¬ (c :: (more ++ rest).take size).length < (c :: more).length := fun less =>
    found'.longest kind _ (by rwa [List.cons_append, List.take_append_drop]) less longest.belongs
  have same : c :: (more ++ rest).take size = c :: more :=
    (List.prefix_of_prefix_length_le taken isPrefix (Nat.le_of_not_lt notLonger)).eq_of_length_le
      (Nat.le_of_not_lt notShorter)
  obtain rfl := only found (same ▸ found'.belongs)
  have front : (more ++ rest).take size = more := (List.cons.inj same).2
  have back : more ++ (more ++ rest).drop size = more ++ rest := by
    nth_rewrite 1 [← front]
    exact List.take_append_drop size _
  exact ⟨size, scanned, front, List.append_cancel_left back⟩

/-! ## Tilings -/

/-- A kind that a text has by what follows it. -/
def TokenKind.Suits (kind : TokenKind) (text rest : List Char) : Prop :=
  (kind ≠ .garbage → kind.Longest text rest) ∧ (kind = .garbage → Unmatched (text ++ rest))

/-- Whether a text starts with a character that separates nothing. -/
def StartsToken (text : List Char) : Prop :=
  ∃ c more, text = c :: more ∧ isSeparator c = false

/-- Tokens that make up a text, which starts at an offset, together with separators between them. -/
inductive Tiles : (offset : Nat) → List Char → List Token → Prop
  | done {offset : Nat} {blanks : List Char} (separate : ∀ c ∈ blanks, isSeparator c = true) : Tiles offset blanks []
  | token {offset : Nat} {source blanks text rest : List Char} {token : Token} {tokens : List Token}
      (whole : source = blanks ++ (text ++ rest)) (separate : ∀ c ∈ blanks, isSeparator c = true)
      (starts : StartsToken text) (suits : token.kind.Suits text rest)
      (start : token.span.start = offset + Text.utf8Length blanks)
      (stop : token.span.stop = token.span.start + Text.utf8Length text)
      (more : Tiles token.span.stop rest tokens) : Tiles offset source (token :: tokens)

theorem StartsToken.append {text : List Char} (h : StartsToken text) (more : List Char) :
    StartsToken (text ++ more) := by
  obtain ⟨c, tail, rfl, nonblank⟩ := h
  exact ⟨c, tail ++ more, rfl, nonblank⟩

namespace Tiles

variable {offset : Nat} {source : List Char} {tokens : List Token}

theorem blank {c : Char} (separates : isSeparator c = true) (h : Tiles (offset + c.utf8Size) source tokens) :
    Tiles offset (c :: source) tokens := by
  cases h with
  | done separate => exact .done (List.forall_mem_cons.mpr ⟨separates, separate⟩)
  | @token _ _ blanks text rest token tokens whole separate starts suits start stop more =>
    have start' : token.span.start = offset + Text.utf8Length (c :: blanks) := by
      rw [start, Text.utf8Length_cons, Nat.add_assoc]
    exact .token (by rw [whole, List.cons_append]) (List.forall_mem_cons.mpr ⟨separates, separate⟩) starts suits start' stop
      more

/-- Two errors with nothing but separators between them are one error: no token starts where the first one does. -/
theorem join {first second : Token} (h : Tiles offset source (first :: second :: tokens))
    (garbage : first.kind = .garbage ∧ second.kind = .garbage) :
    Tiles offset source (⟨.garbage, ⟨first.span.start, second.span.stop⟩⟩ :: tokens) := by
  cases h with
  | @token _ _ blanks text rest _ _ whole separate starts suits start stop more =>
    cases more with
    | @token _ _ between following rest' _ _ whole' _ _ _ start' stop' more =>
      subst whole'
      have suits' : TokenKind.garbage.Suits (text ++ (between ++ following)) rest' :=
        ⟨fun read => absurd rfl read, fun _ => by simpa using suits.2 garbage.1⟩
      refine .token (by simp [whole]) separate (starts.append _) suits' start ?_ more
      simp only [Text.utf8Length_append, stop', start', stop]
      omega

theorem mergeGarbage (h : Tiles offset source tokens) : Tiles offset source (mergeGarbage tokens) := by
  induction h with
  | done separate => exact .done separate
  | @token _ _ _ _ _ token tokens whole separate starts suits start stop _ ih =>
    simp only [Pattern.mergeGarbage]
    cases merged : Pattern.mergeGarbage tokens with
    | nil =>
      rw [merged] at ih
      exact .token whole separate starts suits start stop ih
    | cons next others =>
      rw [merged] at ih
      have tiles := Tiles.token whole separate starts suits start stop ih
      dsimp only
      split
      · exact tiles.join ‹_›
      · exact tiles

end Tiles

/-- The first token of a text that starts with a longest text of one kind only. -/
theorem tokensFrom_of_longest {offset : Nat} {text rest : List Char} {kind : TokenKind} (starts : StartsToken text)
    (longest : kind.Longest text rest) (only : ∀ other, text ∈ (TokenKind.texts other).language → other = kind) :
    tokensFrom offset (text ++ rest) = ⟨kind, ⟨offset, offset + Text.utf8Length text⟩⟩
      :: tokensFrom (offset + Text.utf8Length text) rest := by
  obtain ⟨c, more, rfl, nonblank⟩ := starts
  obtain ⟨size, scanned, front, back⟩ := scan_of_longest longest only
  rw [List.cons_append, tokensFrom, if_neg (ne_true_of_eq_false nonblank), scanned]
  simp only [front, back, Text.utf8Length_cons, Nat.add_assoc]

theorem tiles_tokensFrom (offset : Nat) (source : List Char) : Tiles offset source (tokensFrom offset source) := by
  fun_induction tokensFrom offset source with
  | case1 => exact .done (by simp)
  | case2 offset c rest separates ih => exact ih.blank separates
  | case3 offset c rest nonblank kind more scanned stop ih =>
    have suits : kind.Suits (c :: rest.take more) (rest.drop more) := by
      refine ⟨(scan_longest scanned).1, fun garbage => ?_⟩
      rw [List.cons_append, List.take_append_drop]
      exact (scan_longest scanned).2 garbage
    have whole : c :: rest = [] ++ (c :: rest.take more ++ rest.drop more) := by simp
    refine .token whole (by simp) ⟨c, _, rfl, eq_false_of_ne_true nonblank⟩ suits rfl ?_ ih
    simp only [stop, Text.utf8Length_cons, Nat.add_assoc]

/-- The tokens of a pattern make it up. -/
theorem tiles_tokens (source : List Char) : Tiles 0 source (tokens source) :=
  (tiles_tokensFrom 0 source).mergeGarbage

/-- The place of a character in a text is in the first or in the second part of the text. -/
theorem append_eq_append_cons {α : Type} {xs ys front back : List α} {a : α} (h : xs ++ ys = front ++ a :: back) :
    (∃ more, xs = front ++ a :: more ∧ back = more ++ ys) ∨ ∃ more, front = xs ++ more ∧ ys = more ++ a :: back := by
  rcases List.append_eq_append_iff.mp h with ⟨more, rfl, rest⟩ | ⟨more, rfl, rest⟩
  · exact .inr ⟨more, rfl, rest⟩
  · cases more with
    | nil => exact .inr ⟨[], by simp, rest.symm⟩
    | cons b more =>
      obtain ⟨rfl, later⟩ := List.cons.inj rest
      exact .inl ⟨more, rfl, later⟩

namespace Tiles

variable {offset : Nat} {source : List Char} {tokens : List Token} {token : Token}

/-- Every token has its place in what the tokens tile, and the tokens after it tile what follows. -/
theorem of_suffix {front : List Char} {more : List Token} (h : Tiles offset source tokens)
    (here : offset = Text.utf8Length front) (member : token :: more <:+ tokens) :
    ∃ before text rest, token.span.Cuts (front ++ source) before text rest ∧ offset ≤ Text.utf8Length before
      ∧ StartsToken text ∧ token.kind.Suits text rest ∧ Tiles token.span.stop rest more := by
  induction h generalizing front with
  | done => cases List.suffix_nil.mp member
  | @token offset source blanks text rest first tokens whole separate starts suits start stop tiles ih =>
    rcases List.suffix_cons_iff.mp member with same | later
    · obtain ⟨rfl, rfl⟩ := List.cons.inj same
      refine ⟨front ++ blanks, text, rest, ⟨by simp [whole], ?_, ?_⟩, ?_, starts, suits, tiles⟩
      · rw [start, here, Text.utf8Length_append]
      · rw [stop, start, here, Text.utf8Length_append]
      · rw [here, Text.utf8Length_append]
        exact Nat.le_add_right _ _
    · have next : first.span.stop = Text.utf8Length (front ++ (blanks ++ text)) := by
        simp only [stop, start, here, Text.utf8Length_append, Nat.add_assoc]
      obtain ⟨before, text', rest', cuts, after, found⟩ := ih next later
      refine ⟨before, text', rest', ?_, by omega, found⟩
      simpa [whole] using cuts

/-- Tokens come one after the other. -/
theorem pairwise (h : Tiles offset source tokens) :
    tokens.Pairwise fun first second => first.span.stop ≤ second.span.start := by
  have after {offset : Nat} {source : List Char} {tokens : List Token} (h : Tiles offset source tokens) :
      ∀ token ∈ tokens, offset ≤ token.span.start := by
    induction h with
    | done => simp
    | token _ _ _ _ start stop _ ih =>
      refine List.forall_mem_cons.mpr ⟨by omega, fun later member => ?_⟩
      have := ih later member
      omega
  induction h with
  | done => exact .nil
  | token _ _ _ _ _ _ more ih => exact .cons (after more) ih

/-- What no token covers are separators. -/
theorem separates {front back : List Char} {c : Char} (h : Tiles offset source tokens)
    (place : source = front ++ c :: back)
    (uncovered : ∀ token ∈ tokens, ¬ token.span.Covers (offset + Text.utf8Length front)) : isSeparator c = true := by
  induction h generalizing front with
  | done separate => exact separate c (by simp [place])
  | @token offset source blanks text rest first tokens whole separate starts suits start stop tiles ih =>
    rw [whole] at place
    rcases append_eq_append_cons place with ⟨more, rfl, _⟩ | ⟨front, rfl, inside⟩
    · exact separate c (by simp)
    · rw [Text.utf8Length_append] at uncovered
      rcases append_eq_append_cons inside with ⟨more, rfl, _⟩ | ⟨front, rfl, later⟩
      · refine absurd ⟨by omega, ?_⟩ (uncovered first List.mem_cons_self)
        have := c.utf8Size_pos
        simp only [stop, start, Text.utf8Length_append, Text.utf8Length_cons]
        omega
      · refine ih later fun token member => ?_
        have same : first.span.stop + Text.utf8Length front
            = offset + (Text.utf8Length blanks + Text.utf8Length (text ++ front)) := by
          simp only [stop, start, Text.utf8Length_append]
          omega
        rw [same]
        exact uncovered token (List.mem_cons_of_mem _ member)

end Tiles

theorem isChain_mergeGarbage (tokens : List Token) :
    (mergeGarbage tokens).IsChain fun first second => ¬ (first.kind = .garbage ∧ second.kind = .garbage) := by
  induction tokens with
  | nil => exact .nil
  | cons token tokens ih =>
    simp only [mergeGarbage]
    cases merged : mergeGarbage tokens with
    | nil => exact .singleton token
    | cons next others =>
      rw [merged] at ih
      dsimp only
      split
      · rename_i both
        cases others with
        | nil => exact .singleton _
        | cons third others =>
          rw [List.isChain_cons_cons] at ih ⊢
          exact ⟨fun again => ih.1 ⟨both.2, again.2⟩, ih.2⟩
      · rename_i different
        exact .cons_cons different ih

section

variable {source : List Char} {token : Token}

theorem token_cuts (member : token ∈ tokens source) :
    ∃ front text rest, token.span.Cuts source front text rest ∧ StartsToken text ∧ token.kind.Suits text rest := by
  obtain ⟨before, after, split⟩ := List.append_of_mem member
  have suffix : token :: after <:+ tokens source := split ▸ List.suffix_append before (token :: after)
  obtain ⟨front, text, rest, cuts, _, starts, suits, _⟩ := (tiles_tokens source).of_suffix (by rfl : 0 = Text.utf8Length [])
    suffix
  exact ⟨front, text, rest, cuts, starts, suits⟩

/-- The text of a token belongs to its kind. -/
theorem tokens_accepts (h : token ∈ tokens source) (read : token.kind ≠ .garbage) :
    token.kind.texts.accepts (token.text source) = true := by
  obtain ⟨front, text, rest, cuts, _, suits⟩ := token_cuts h
  rw [Token.text, cuts.of_eq]
  exact Text.Regular.accepts_iff.mpr (suits.1 read).belongs

end

/-- Tokens tile their pattern with longest matches. They stand on characters, one after the other, and what is outside
them separates; a token is the longest text of any kind that starts at its place, an error starts where no token does, and
no two errors are neighbours. -/
theorem tokens_tile (source : List Char) :
    (∀ token ∈ tokens source, ∃ front text rest, token.span.Cuts source front text rest ∧ text ≠ []
      ∧ (token.kind ≠ .garbage → token.kind.Longest text rest)
      ∧ (token.kind = .garbage → StartsToken text ∧ Unmatched (text ++ rest)))
    ∧ ((tokens source).Pairwise fun first second => first.span.stop ≤ second.span.start)
    ∧ (∀ front c back, source = front ++ c :: back →
      (∀ token ∈ tokens source, ¬ token.span.Covers (Text.utf8Length front)) → isSeparator c = true)
    ∧ (tokens source).IsChain fun first second => ¬ (first.kind = .garbage ∧ second.kind = .garbage) := by
  have tiles := tiles_tokens source
  refine ⟨fun token member => ?_, tiles.pairwise, fun front c back place uncovered => ?_, isChain_mergeGarbage _⟩
  · obtain ⟨front, text, rest, cuts, starts, suits⟩ := token_cuts member
    refine ⟨front, text, rest, cuts, ?_, suits.1, fun garbage => ⟨starts, suits.2 garbage⟩⟩
    obtain ⟨c, more, rfl, _⟩ := starts
    exact List.cons_ne_nil c more
  · exact tiles.separates place (by simpa using uncovered)

end Pattern

end BitTemplate
