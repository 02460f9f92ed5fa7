import BitTemplate.Text.Regular
import Mathlib.Computability.Language

/-!
Regular expressions and their languages. The language of an expression is said without derivatives, by union,
concatenation and repetition of languages. The main statements say that the derivative by a text is the quotient of the
language by it, that a void expression has the empty language, and that the texts which are accepted are those of the
language.
-/

namespace BitTemplate.Text.Regular

open scoped Computability

/-- The texts that belong to an expression. -/
def language : Regular → Language Char
  | void => 0
  | nil => 1
  | one test => {text | ∃ c, test c = true ∧ text = [c]}
  | seq first second => first.language * second.language
  | alt left right => left.language + right.language
  | star body => body.language∗

/-! ## Words -/

section

variable {α : Type} {l m : Language α} {a : α} {text : List α}

theorem nil_mem_mul : [] ∈ l * m ↔ [] ∈ l ∧ [] ∈ m := by
  rw [Language.mem_mul]
  constructor
  · rintro ⟨front, hf, back, hb, joined⟩
    obtain ⟨rfl, rfl⟩ := List.append_eq_nil_iff.mp joined
    exact ⟨hf, hb⟩
  · rintro ⟨hl, hm⟩
    exact ⟨[], hl, [], hm, rfl⟩

/-- The first character of a concatenation is the first one of its first part, or that part is empty. -/
theorem cons_mem_mul :
    a :: text ∈ l * m ↔ (∃ front back, a :: front ∈ l ∧ back ∈ m ∧ front ++ back = text) ∨ [] ∈ l ∧ a :: text ∈ m := by
  rw [Language.mem_mul]
  constructor
  · rintro ⟨front, hf, back, hb, joined⟩
    cases front with
    | nil =>
      obtain rfl : back = a :: text := joined
      exact .inr ⟨hf, hb⟩
    | cons first front =>
      obtain ⟨rfl, rest⟩ := List.cons.inj joined
      exact .inl ⟨front, back, hf, hb, rest⟩
  · rintro (⟨front, back, hf, hb, rfl⟩ | ⟨empty, whole⟩)
    · exact ⟨a :: front, hf, back, hb, rfl⟩
    · exact ⟨[], empty, a :: text, whole, rfl⟩

/-- The first character of a repetition is the first one of a text that is repeated. -/
theorem cons_mem_kstar : a :: text ∈ l∗ ↔ ∃ front back, a :: front ∈ l ∧ back ∈ l∗ ∧ front ++ back = text := by
  constructor
  · intro h
    obtain ⟨parts, joined, each⟩ := Language.mem_kstar_iff_exists_nonempty.mp h
    cases parts with
    | nil => cases joined
    | cons part parts =>
      obtain ⟨member, nonempty⟩ := each part List.mem_cons_self
      cases part with
      | nil => exact absurd rfl nonempty
      | cons first front =>
        obtain ⟨rfl, rest⟩ := List.cons.inj joined
        exact ⟨front, parts.flatten, member,
          Language.join_mem_kstar fun other ho => (each other (List.mem_cons_of_mem _ ho)).1, rest.symm⟩
  · rintro ⟨front, back, hf, hb, rfl⟩
    obtain ⟨parts, rfl, each⟩ := Language.mem_kstar.mp hb
    refine Language.mem_kstar.mpr ⟨(a :: front) :: parts, rfl, fun part hp => ?_⟩
    rcases List.mem_cons.mp hp with rfl | hp
    · exact hf
    · exact each part hp

end

/-! ## Derivatives -/

variable {r : Regular} {text : List Char}

theorem hasNil_iff : r.hasNil = true ↔ [] ∈ r.language := by
  induction r with
  | void => simp [hasNil, language]
  | nil => simp [hasNil, language]
  | one test =>
    constructor
    · intro h
      cases h
    · rintro ⟨c, _, ⟨⟩⟩
  | seq first second hf hs => rw [hasNil, language, nil_mem_mul, Bool.and_eq_true, hf, hs]
  | alt left right hl hr => rw [hasNil, language, Language.mem_add, Bool.or_eq_true, hl, hr]
  | star body => simp [hasNil, language, Language.nil_mem_kstar]

/-- No text belongs to a void expression. -/
theorem language_of_isVoid (h : r.isVoid = true) : r.language = 0 := by
  induction r with
  | void => rfl
  | nil => cases h
  | one test => cases h
  | seq first second hf hs =>
    rcases Bool.or_eq_true_iff.mp h with h | h
    · rw [language, hf h, zero_mul]
    · rw [language, hs h, mul_zero]
  | alt left right hl hr =>
    obtain ⟨left_void, right_void⟩ := Bool.and_eq_true_iff.mp h
    rw [language, hl left_void, hr right_void, add_zero]
  | star body => cases h

@[simp] theorem language_join (first second : Regular) :
    (join first second).language = first.language * second.language := by
  unfold join
  split
  · exact (zero_mul _).symm
  · exact (mul_zero _).symm
  · exact (one_mul _).symm
  · rfl

@[simp] theorem language_either (left right : Regular) :
    (either left right).language = left.language + right.language := by
  unfold either
  split
  · exact (zero_add _).symm
  · exact (add_zero _).symm
  · rfl

/-- The derivative by a character has the rests of the texts that start with the character. -/
theorem mem_language_after {c : Char} : text ∈ (r.after c).language ↔ c :: text ∈ r.language := by
  induction r generalizing text with
  | void => simp [after, language]
  | nil => simp [after, language]
  | one test =>
    have single : c :: text ∈ (one test).language ↔ test c = true ∧ text = [] := by
      constructor
      · rintro ⟨_, passes, ⟨⟩⟩
        exact ⟨passes, rfl⟩
      · rintro ⟨passes, rfl⟩
        exact ⟨c, passes, rfl⟩
    rw [single, after]
    split
    · simp [language, *]
    · simp [language, *]
  | seq first second hf hs =>
    have front : text ∈ (join (first.after c) second).language
        ↔ ∃ front back, c :: front ∈ first.language ∧ back ∈ second.language ∧ front ++ back = text := by
      rw [language_join, Language.mem_mul]
      constructor
      · rintro ⟨front, member, back, rest⟩
        exact ⟨front, back, hf.mp member, rest⟩
      · rintro ⟨front, back, member, rest⟩
        exact ⟨front, hf.mpr member, back, rest⟩
    rw [language, cons_mem_mul, ← front, after]
    split
    · rw [language_either, Language.mem_add, hs, ← hasNil_iff]
      simp only [*, true_and]
    · rw [← hasNil_iff]
      simp only [*, Bool.false_eq_true, false_and, or_false]
  | alt left right hl hr => rw [after, language_either, Language.mem_add, hl, hr, language, Language.mem_add]
  | star body hb =>
    rw [language, cons_mem_kstar, after, language_join, Language.mem_mul]
    constructor
    · rintro ⟨front, member, back, rest⟩
      exact ⟨front, back, hb.mp member, rest⟩
    · rintro ⟨front, back, member, rest⟩
      exact ⟨front, hb.mpr member, back, rest⟩

/-- The derivative by a text has the rests of the texts that start with it. -/
theorem mem_language_afterAll {read : List Char} : text ∈ (r.afterAll read).language ↔ read ++ text ∈ r.language := by
  induction read generalizing r with
  | nil => exact Iff.rfl
  | cons c read ih =>
    rw [afterAll, List.foldl_cons, ← afterAll, ih, mem_language_after]
    exact Iff.rfl

theorem notMem_of_isVoid_afterAll {read : List Char} (h : (r.afterAll read).isVoid = true) :
    read ++ text ∉ r.language := by
  rw [← mem_language_afterAll, language_of_isVoid h]
  exact Language.notMem_zero text

/-- The accepted texts are those of the language. -/
theorem accepts_iff : r.accepts text = true ↔ text ∈ r.language := by
  rw [accepts, hasNil_iff, mem_language_afterAll, List.append_nil]

/-- A text of a character that passes a test and a text of an expression. -/
theorem mem_language_seq_one {test : Char → Bool} :
    text ∈ (seq (one test) r).language ↔ ∃ c rest, text = c :: rest ∧ test c = true ∧ rest ∈ r.language := by
  rw [language, Language.mem_mul]
  constructor
  · rintro ⟨_, ⟨c, passes, rfl⟩, rest, member, rfl⟩
    exact ⟨c, rest, rfl, passes, member⟩
  · rintro ⟨c, rest, rfl, passes, member⟩
    exact ⟨[c], ⟨c, passes, rfl⟩, rest, member, rfl⟩

/-- The texts of a repeated character are those whose characters all pass the test. -/
theorem mem_language_star_one {test : Char → Bool} : text ∈ (star (one test)).language ↔ ∀ c ∈ text, test c = true := by
  induction text with
  | nil => exact iff_of_true (Language.nil_mem_kstar _) (List.forall_mem_nil _)
  | cons c text ih =>
    rw [language, cons_mem_kstar, List.forall_mem_cons, ← ih]
    constructor
    · rintro ⟨_, back, ⟨_, passes, ⟨⟩⟩, more, rfl⟩
      exact ⟨passes, more⟩
    · rintro ⟨passes, more⟩
      exact ⟨[], text, ⟨c, passes, rfl⟩, more, rfl⟩

theorem mem_language_plus_one {test : Char → Bool} :
    text ∈ (plus (one test)).language ↔ text ≠ [] ∧ ∀ c ∈ text, test c = true := by
  rw [plus, mem_language_seq_one]
  constructor
  · rintro ⟨c, rest, rfl, passes, more⟩
    exact ⟨List.cons_ne_nil c rest, List.forall_mem_cons.mpr ⟨passes, mem_language_star_one.mp more⟩⟩
  · rintro ⟨nonempty, passes⟩
    obtain ⟨c, rest, rfl⟩ := List.exists_cons_of_ne_nil nonempty
    obtain ⟨passes, more⟩ := List.forall_mem_cons.mp passes
    exact ⟨c, rest, rfl, passes, mem_language_star_one.mpr more⟩

/-- Whether every test of an expression only lets characters with a property pass. -/
def Uses (property : Char → Prop) : Regular → Prop
  | void => True
  | nil => True
  | one test => ∀ c, test c = true → property c
  | seq first second => first.Uses property ∧ second.Uses property
  | alt left right => left.Uses property ∧ right.Uses property
  | star body => body.Uses property

/-- The texts of an expression are made of the characters that its tests let pass. -/
theorem Uses.forall_mem {property : Char → Prop} (uses : r.Uses property) (belongs : text ∈ r.language) :
    ∀ c ∈ text, property c := by
  induction r generalizing text with
  | void => exact absurd belongs (Language.notMem_zero text)
  | nil =>
    obtain rfl := (Language.mem_one text).mp belongs
    exact List.forall_mem_nil _
  | one test =>
    obtain ⟨c, passes, rfl⟩ := belongs
    exact List.forall_mem_singleton.mpr (uses c passes)
  | seq first second hf hs =>
    obtain ⟨front, before, back, behind, rfl⟩ := Language.mem_mul.mp belongs
    exact List.forall_mem_append.mpr ⟨hf uses.1 before, hs uses.2 behind⟩
  | alt left right hl hr =>
    rcases (Language.mem_add _ _ _).mp belongs with belongs | belongs
    · exact hl uses.1 belongs
    · exact hr uses.2 belongs
  | star body hb =>
    obtain ⟨parts, rfl, each⟩ := Language.mem_kstar.mp belongs
    intro c hc
    obtain ⟨part, member, inside⟩ := List.mem_flatten.mp hc
    exact hb uses (each part member) c inside

/-- Whether no test of an expression lets a character pass. -/
def lacks (c : Char) : Regular → Bool
  | void => true
  | nil => true
  | one test => !test c
  | seq first second => first.lacks c && second.lacks c
  | alt left right => left.lacks c && right.lacks c
  | star body => body.lacks c

theorem uses_of_lacks {c : Char} (h : r.lacks c = true) : r.Uses (· ≠ c) := by
  induction r with
  | void => trivial
  | nil => trivial
  | one test =>
    rintro d passes rfl
    rw [lacks, passes] at h
    cases h
  | seq first second hf hs => exact (Bool.and_eq_true_iff.mp h).imp hf hs
  | alt left right hl hr => exact (Bool.and_eq_true_iff.mp h).imp hl hr
  | star body hb => exact hb h

theorem notMem_of_lacks {c : Char} (h : r.lacks c = true) (belongs : text ∈ r.language) : c ∉ text :=
  fun member => (uses_of_lacks h).forall_mem belongs c member rfl

theorem language_char (c : Char) : (char c).language = {[c]} := by
  ext text
  constructor
  · rintro ⟨d, same, rfl⟩
    rw [eq_of_beq same]
    rfl
  · rintro rfl
    exact ⟨c, beq_self_eq_true c, rfl⟩

theorem language_word (text : List Char) : (word text).language = {text} := by
  fun_induction word text with
  | case1 => rfl
  | case2 c => exact language_char c
  | case3 c rest _ ih =>
    ext text
    rw [char, mem_language_seq_one, ih]
    constructor
    · rintro ⟨d, _, rfl, same, rfl⟩
      rw [eq_of_beq same]
      rfl
    · rintro rfl
      exact ⟨c, rest, rfl, beq_self_eq_true c, rfl⟩

end BitTemplate.Text.Regular
