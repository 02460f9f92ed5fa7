import BitTemplate.Pattern.Lexer

/-!
Tokens and their texts. A span counts bytes, and one that starts and stops where characters do covers these. The scan
follows all kinds of tokens at once, each as the derivative of its texts by what it has read, and keeps the longest text
that belongs to one of them, so what it finds is a text of its kind.
-/

namespace BitTemplate

/-! ## Spans -/

namespace Text

theorem foldl_utf8Size (size : Nat) (text : List Char) :
    text.foldl (fun size c => size + c.utf8Size) size = size + utf8Length text := by
  induction text generalizing size with
  | nil => rfl
  | cons c rest ih =>
    rw [utf8Length, List.foldl_cons, List.foldl_cons, ih, ih (0 + c.utf8Size)]
    omega

@[simp] theorem utf8Length_cons (c : Char) (rest : List Char) : utf8Length (c :: rest) = c.utf8Size + utf8Length rest := by
  rw [utf8Length, List.foldl_cons, foldl_utf8Size, Nat.zero_add]

@[simp] theorem utf8Length_append (front back : List Char) :
    utf8Length (front ++ back) = utf8Length front + utf8Length back := by
  induction front with
  | nil => exact (Nat.zero_add _).symm
  | cons c rest ih => rw [List.cons_append, utf8Length_cons, utf8Length_cons, ih, Nat.add_assoc]

end Text

theorem dropBytes_cons (c : Char) (size : Nat) (rest : List Char) :
    dropBytes (c.utf8Size + size) (c :: rest) = dropBytes size rest := by
  obtain ⟨less, positive⟩ := Nat.exists_eq_add_one.mpr (Nat.add_pos_left c.utf8Size_pos size)
  rw [positive, dropBytes, ← positive, Nat.add_sub_cancel_left]
  exact Nat.succ_ne_zero less

theorem takeBytes_cons (c : Char) (size : Nat) (rest : List Char) :
    takeBytes (c.utf8Size + size) (c :: rest) = c :: takeBytes size rest := by
  obtain ⟨less, positive⟩ := Nat.exists_eq_add_one.mpr (Nat.add_pos_left c.utf8Size_pos size)
  rw [positive, takeBytes, ← positive, Nat.add_sub_cancel_left]
  exact Nat.succ_ne_zero less

theorem dropBytes_utf8Length (front back : List Char) : dropBytes (Text.utf8Length front) (front ++ back) = back := by
  induction front with
  | nil => cases back <;> rfl
  | cons c rest ih => rw [Text.utf8Length_cons, List.cons_append, dropBytes_cons, ih]

theorem takeBytes_utf8Length (front back : List Char) : takeBytes (Text.utf8Length front) (front ++ back) = front := by
  induction front with
  | nil => cases back <;> rfl
  | cons c rest ih => rw [Text.utf8Length_cons, List.cons_append, takeBytes_cons, ih]

/-- A span that ends where characters do covers them. -/
theorem Span.of_append (front middle back : List Char) :
    Span.of (front ++ (middle ++ back))
      ⟨Text.utf8Length front, Text.utf8Length front + Text.utf8Length middle⟩ = middle := by
  rw [Span.of, Nat.add_sub_cancel_left, dropBytes_utf8Length, takeBytes_utf8Length]

namespace Pattern

/-! ## Scanning -/

/-- The longest token so far, if there is one, is a text of its kind. -/
def Match.Holds (found : Match) (text : List Char) : Prop :=
  ∀ kind length, found.best = some (kind, length) → 0 < length ∧ kind.texts.accepts (text.take length) = true

/-- The invariant of the scan: each kind that is left stands for the rests of its texts after what was read. -/
theorem extend_holds {live : List (TokenKind × Text.Regular)} {found : Match} {read rest : List Char}
    (follows : ∀ kind r, (kind, r) ∈ live → r = kind.texts.afterAll read) (viable : found.viable = read.length)
    (holds : found.Holds (read ++ rest)) : (extend live found rest).Holds (read ++ rest) := by
  induction rest generalizing live found read with
  | nil => exact holds
  | cons c rest ih =>
    have next : ∀ kind r, (kind, r) ∈ advance c live → r = kind.texts.afterAll (read ++ [c]) := by
      intro kind r member
      obtain ⟨⟨_, r'⟩, before, made⟩ := List.mem_map.mp (List.mem_filter.mp member).1
      cases made
      rw [follows kind r' before, Text.Regular.afterAll, Text.Regular.afterAll, List.foldl_append]
      rfl
    simp only [extend]
    split
    · exact holds
    · rw [List.append_cons] at holds ⊢
      refine ih next (by simp [viable]) fun kind length best => ?_
      dsimp only at best
      split at best
      · rename_i kind' r complete
        cases best
        refine ⟨Nat.succ_pos _, ?_⟩
        have whole : found.viable + 1 = (read ++ [c]).length := by simp [viable]
        rw [whole, List.take_left, Text.Regular.accepts, ← next kind r (List.mem_of_find?_eq_some complete)]
        exact @List.find?_some _ (fun entry => entry.2.hasNil) (kind, r) _ complete
      · exact holds kind length best

/-- What the scan finds is a text of its kind. -/
theorem scan_accepts {c : Char} {rest : List Char} {kind : TokenKind} {more : Nat}
    (h : scan (c :: rest) = (kind, more)) (read : kind ≠ .garbage) :
    kind.texts.accepts (c :: rest.take more) = true := by
  simp only [scan] at h
  split at h
  · rename_i kind' length best
    cases h
    have start : ∀ kind r, (kind, r) ∈ TokenKind.all.map (fun kind => (kind, kind.texts)) →
        r = kind.texts.afterAll [] := by
      intro kind r member
      obtain ⟨_, _, made⟩ := List.mem_map.mp member
      cases made
      rfl
    obtain ⟨some_text, accepted⟩ := @extend_holds _ ⟨none, 0⟩ [] (c :: rest) start rfl (fun _ _ none => nomatch none) kind
      length best
    obtain ⟨more, rfl⟩ : ∃ more, length = more + 1 := ⟨length - 1, by omega⟩
    exact accepted
  · cases h
    exact absurd rfl read

end Pattern

end BitTemplate
