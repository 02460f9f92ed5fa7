import Mathlib
import BitTemplate.Proofs.NumberText
import BitTemplate.Value.Printer

/-!
Colored values. The printer puts control sequences between the parts of a value and nowhere else, and it escapes every
control in a text. So a printed value has no escape character of its own, no text can begin or complete a sequence, and
deleting the sequences from the colored form leaves the form without colors.
-/

namespace BitTemplate

namespace Palette

/-! ## Deleting sequences -/

/-- The control sequences of a palette. -/
def sequences (palette : Palette) : List (List Char) :=
  [palette.blue, palette.green, palette.dim, palette.reset].map String.toList

/-- The characters outside of the sequences of a palette, which are looked for from left to right. -/
def strip (palette : Palette) : List Char → List Char
  | [] => []
  | c :: rest =>
    match palette.sequences.find? fun sequence => !sequence.isEmpty && sequence.isPrefixOf (c :: rest) with
    | some sequence => palette.strip (rest.drop (sequence.length - 1))
    | none => c :: palette.strip rest
termination_by text => text.length
decreasing_by
  · rw [List.length_drop, List.length_cons]
    omega
  · exact Nat.lt_succ_self _

/-- A text after every sequence of a palette in it is deleted. -/
def uncolor (palette : Palette) (text : String) : String :=
  String.ofList (palette.strip text.toList)

section

variable {text rest sequence : List Char}

/-- Each sequence starts with an escape character. -/
theorem head_of_mem_sequences (among : sequence ∈ colored.sequences) : ∃ tail, sequence = '\x1b' :: tail := by
  simp only [sequences, colored, List.map_cons, List.map_nil, List.mem_cons, List.not_mem_nil, or_false] at among
  rcases among with rfl | rfl | rfl | rfl <;> exact ⟨_, rfl⟩

/-- A sequence is deleted where it stands. -/
theorem strip_sequence (among : sequence ∈ colored.sequences) (rest : List Char) :
    colored.strip (sequence ++ rest) = colored.strip rest := by
  simp only [sequences, colored, List.map_cons, List.map_nil, List.mem_cons, List.not_mem_nil, or_false] at among
  rcases among with rfl | rfl | rfl | rfl <;> simp [strip, sequences, colored, List.isPrefixOf]

/-- A character that is no escape character is kept. -/
theorem strip_cons {c : Char} (inert : c ≠ '\x1b') (rest : List Char) :
    colored.strip (c :: rest) = c :: colored.strip rest := by
  have none : colored.sequences.find? (fun s => !s.isEmpty && s.isPrefixOf (c :: rest)) = none := by
    rw [List.find?_eq_none]
    intro s among
    obtain ⟨tail, rfl⟩ := head_of_mem_sequences among
    simp [List.isPrefixOf, inert.symm]
  rw [strip, none]

theorem strip_append (inert : '\x1b' ∉ text) (rest : List Char) :
    colored.strip (text ++ rest) = text ++ colored.strip rest := by
  induction text with
  | nil => rfl
  | cons c more ih =>
    obtain ⟨first, later⟩ := List.ne_and_not_mem_of_not_mem_cons inert
    rw [List.cons_append, strip_cons first.symm, ih later, List.cons_append]

end

/-! ## Colored texts -/

/-- A text is another one with sequences between its characters: without them it is the other one, whatever follows,
and the other one has no escape character. -/
structure Colors (shown plain : String) : Prop where
  strips : ∀ rest, colored.strip (shown.toList ++ rest) = plain.toList ++ colored.strip rest
  inert : '\x1b' ∉ plain.toList

namespace Colors

variable {text first second shown plain : String}

/-- A text without escape characters has no sequences. -/
theorem of_inert (inert : '\x1b' ∉ text.toList) : Colors text text :=
  ⟨strip_append inert, inert⟩

theorem of_sequence (among : text.toList ∈ colored.sequences) : Colors text "" := by
  constructor
  · intro rest
    rw [strip_sequence among, String.toList_empty, List.nil_append]
  · exact List.not_mem_nil

theorem append (h : Colors first shown) (later : Colors second plain) : Colors (first ++ second) (shown ++ plain) := by
  constructor
  · intro rest
    rw [String.toList_append, String.toList_append, List.append_assoc, h.strips, later.strips, List.append_assoc]
  · rw [String.toList_append, List.mem_append, not_or]
    exact ⟨h.inert, later.inert⟩

theorem literal (h : Colors shown plain) : Colors (colored.literal shown) (Palette.plain.literal plain) :=
  ((of_sequence (by simp [sequences])).append h).append (of_sequence (by simp [sequences]))

theorem faint (h : Colors shown plain) : Colors (colored.faint shown) (Palette.plain.faint plain) :=
  ((of_sequence (by simp [sequences])).append h).append (of_sequence (by simp [sequences]))

/-- A text with sequences is the other one once they are deleted. -/
theorem uncolor_eq (h : Colors shown plain) : colored.uncolor shown = plain := by
  have strips := h.strips []
  rw [List.append_nil, strip, List.append_nil] at strips
  rw [uncolor, strips, String.ofList_toList]

/-- No sequence is left in it. -/
theorem not_infix (h : Colors shown plain) {sequence : List Char} (among : sequence ∈ colored.sequences) :
    ¬ sequence <:+: plain.toList := by
  intro inside
  obtain ⟨tail, rfl⟩ := head_of_mem_sequences among
  exact h.inert (inside.subset List.mem_cons_self)

end Colors

end Palette

/-! ## Characters of printed values -/

/-- The escape character is in no number. -/
theorem foreign_escape : Foreign '\x1b' := ⟨rfl, by decide⟩

namespace Value

theorem escape_not_mem_shownFloat (x : Double) : '\x1b' ∉ (shownFloat.write x).toList :=
  foreign_escape.notMem_write shownFloat x (by simp [shownFloat]) (by simp [shownFloat])

/-- The code of a control is written without an escape character. -/
theorem escape_not_mem_unicodeEscape {c : Char} (control : isControl c = true) :
    '\x1b' ∉ (unicodeEscape c).toList := by
  have codes : ∀ k : Fin 160, '\x1b' ∉ Nat.toDigits 16 k.val := by decide +kernel
  have digits : '\x1b' ∉ Nat.toDigits 16 c.toNat := codes ⟨c.toNat, toNat_lt_of_isControl control⟩
  simp [unicodeEscape, digits]

/-- No character of a string is printed with an escape character: it is a control itself. -/
theorem escape_not_mem_escapeShown (c : Char) : '\x1b' ∉ (escapeShown c).toList := by
  unfold escapeShown
  by_cases control : isControl c = true
  · have code := escape_not_mem_unicodeEscape control
    rw [if_pos control]
    split_ifs <;> simp [code]
  · have other : c ≠ '\x1b' := by
      intro same
      rw [same] at control
      exact control rfl
    rw [if_neg control]
    split_ifs <;> simp [other.symm]

/-- A printed string has no escape character, whatever the string. -/
theorem escape_not_mem_quote (content : String) : '\x1b' ∉ (quote escapeShown content).toList := by
  simp [quote, escape_not_mem_escapeShown]

theorem escape_not_mem_line (palette : Palette) (pretty : Bool) (depth : Nat) :
    '\x1b' ∉ ((shown palette pretty).line depth).toList := by
  cases pretty <;> simp [shown]

/-! ## Printed values -/

open Palette (Colors)

section

variable {pretty : Bool}

theorem colors_string (content : String) :
    Colors ((shown Palette.colored pretty).string content) ((shown Palette.plain pretty).string content) :=
  (Colors.of_inert (escape_not_mem_quote content)).literal

theorem colors_line (depth : Nat) :
    Colors ((shown Palette.colored pretty).line depth) ((shown Palette.plain pretty).line depth) :=
  Colors.of_inert (escape_not_mem_line Palette.plain pretty depth)

theorem colors_opening : Colors (shown Palette.colored pretty).opening (shown Palette.plain pretty).opening :=
  (Colors.of_inert (by simp)).faint

theorem colors_closing : Colors (shown Palette.colored pretty).closing (shown Palette.plain pretty).closing :=
  (Colors.of_inert (by simp)).faint

theorem colors_comma : Colors (shown Palette.colored pretty).comma (shown Palette.plain pretty).comma :=
  (Colors.of_inert (by simp)).faint

mutual

/-- The colored form of a value is the form without colors with sequences between its parts. -/
theorem colors_write : ∀ (value : Value) (depth : Nat),
    Colors (value.write (shown Palette.colored pretty) depth) (value.write (shown Palette.plain pretty) depth)
  | .uint n, _ => by
    rw [write, write, Nat.toString_eq_ofList_toDigits]
    exact Colors.of_inert (by simpa using foreign_escape.notMem_digits n.toNat)
  | .sint n, _ => by
    rw [write, write]
    exact Colors.of_inert (foreign_escape.notMem_integer n.toInt)
  | .float x, _ => Colors.of_inert (escape_not_mem_shownFloat x)
  | .hex digits, _ => colors_string digits
  | .bin digits, _ => colors_string digits
  | .bytes content, _ => colors_string (Hex.ofBytes content)
  | .text content, _ => colors_string content
  | .list [], _ => colors_opening.append colors_closing
  | .list (item :: rest), depth => by
    rw [write, write]
    exact ((((colors_opening.append (colors_line _)).append (colors_write item _)).append
      (colors_writeRest rest _)).append (colors_line _)).append colors_closing

theorem colors_writeRest : ∀ (items : List Value) (depth : Nat),
    Colors (writeRest (shown Palette.colored pretty) depth items) (writeRest (shown Palette.plain pretty) depth items)
  | [], _ => Colors.of_inert (by simp [writeRest])
  | item :: rest, depth => by
    rw [writeRest, writeRest]
    exact ((colors_comma.append (colors_line _)).append (colors_write item _)).append (colors_writeRest rest _)

end

end

/-- Deleting the sequences of the palette from the colored form of a value leaves the form without colors, in which
there are none. -/
theorem uncolor_format (value : Value) (pretty : Bool) :
    Palette.colored.uncolor (value.format pretty Palette.colored) = value.format pretty Palette.plain
      ∧ ∀ sequence ∈ Palette.colored.sequences, ¬ sequence <:+: (value.format pretty Palette.plain).toList := by
  have colors : Colors (value.format pretty Palette.colored) (value.format pretty Palette.plain) := colors_write value 0
  exact ⟨colors.uncolor_eq, fun _ among => colors.not_infix among⟩

/-- A text that spells the end of a color stays what it is. -/
theorem uncolor_format_spelledSequence :
    (Value.list [.text "\x1b[0m", .list []]).format false Palette.colored
        = "\x1b[2m[\x1b[0m\x1b[32m\"\\u001b[0m\"\x1b[0m\x1b[2m,\x1b[0m\x1b[2m[\x1b[0m\x1b[2m]\x1b[0m\x1b[2m]\x1b[0m"
      ∧ Palette.colored.uncolor ((Value.list [.text "\x1b[0m", .list []]).format false Palette.colored)
        = "[\"\\u001b[0m\",[]]"
      ∧ ¬ "\x1b[0m".toList <:+: "[\"\\u001b[0m\",[]]".toList := by
  have plain : (Value.list [.text "\x1b[0m", .list []]).format false Palette.plain = "[\"\\u001b[0m\",[]]" := by cbv
  have same := uncolor_format (.list [.text "\x1b[0m", .list []]) false
  rw [plain] at same
  exact ⟨by cbv, same.1, same.2 _ (by simp [Palette.sequences, Palette.colored])⟩

end Value

end BitTemplate
