import Mathlib
import BitTemplate.Proofs.LineFeeds
import BitTemplate.Proofs.Literals
import BitTemplate.Proofs.NumberText

/-!
Rows of listings. A listing is one row after the other, each with the index of its instruction in columns of the same
width, and all that a row adds to the text of its instruction is free of line feeds up to the one that ends it: names and
constants are escaped. The text of the instruction is not, so the rows are lines exactly if no such text has a line feed.
-/

namespace BitTemplate

namespace Text

/-! ## Line feeds -/

/-- The number of line feeds in a text. -/
def lineFeeds (text : String) : Nat :=
  text.toList.count '\n'

section

variable {text : String}

theorem lineFeeds_eq_zero : lineFeeds text = 0 ↔ '\n' ∉ text.toList :=
  List.count_eq_zero

@[simp] theorem lineFeeds_append (first second : String) :
    lineFeeds (first ++ second) = lineFeeds first + lineFeeds second := by
  rw [lineFeeds, String.toList_append, List.count_append, lineFeeds, lineFeeds]

theorem lineFeeds_join (texts : List String) : lineFeeds (String.join texts) = (texts.map lineFeeds).sum := by
  rw [lineFeeds, String.toList_join, List.count_flatMap]
  rfl

@[simp] theorem lineFeeds_blank : lineFeeds " " = 0 := by
  decide

@[simp] theorem lineFeeds_gap : lineFeeds "  " = 0 := by
  decide

@[simp] theorem lineFeeds_blanks (count : Nat) : lineFeeds (String.ofList (List.replicate count ' ')) = 0 := by
  rw [lineFeeds_eq_zero]
  simp

/-- The control sequences of both palettes have no line feeds. -/
theorem lineFeeds_sequences (color : Bool) :
    lineFeeds (Palette.select color).blue = 0 ∧ lineFeeds (Palette.select color).green = 0
      ∧ lineFeeds (Palette.select color).dim = 0 ∧ lineFeeds (Palette.select color).reset = 0 := by
  cases color <;> decide

@[simp] theorem lineFeeds_literal (color : Bool) (text : String) :
    lineFeeds ((Palette.select color).literal text) = lineFeeds text := by
  simp [Palette.literal, lineFeeds_sequences]

@[simp] theorem lineFeeds_mnemonic (color : Bool) (text : String) :
    lineFeeds ((Palette.select color).mnemonic text) = lineFeeds text := by
  simp [Palette.mnemonic, lineFeeds_sequences]

/-! ## Escapes -/

theorem lineFeed_notMem_codePoint (c : Char) : '\n' ∉ (codePoint c).toList := by
  have digits : '\n' ∉ Nat.toDigits 16 c.toNat := by
    intro member
    obtain ⟨_, shown⟩ := (Pattern.numeral_toDigits (by decide) (by decide) c.toNat).forall_mem _ member
    exact absurd shown.hexadecimal.1 (by decide)
  simp [codePoint, digits]

/-- A line feed is escaped itself, so no escape has one. -/
theorem lineFeed_notMem_escaped (quote c : Char) : '\n' ∉ (escaped quote c).toList := by
  unfold escaped
  split_ifs with null tab feed
  · decide
  · decide
  · decide
  · decide
  · simp [Ne.symm feed]
  · exact lineFeed_notMem_codePoint c
  · simp [Ne.symm feed]

@[simp] theorem lineFeeds_quoted (text : String) : lineFeeds (quoted text) = 0 := by
  rw [lineFeeds_eq_zero]
  simp [quoted, lineFeed_notMem_escaped]

end

end Text

open Text

/-! ## Operands -/

/-- A line feed is in no number. -/
theorem foreign_lineFeed : Foreign '\n' := ⟨rfl, by decide⟩

@[simp] theorem lineFeeds_repr (n : Nat) : lineFeeds n.repr = 0 := by
  rw [lineFeeds_eq_zero, Nat.toList_repr]
  exact foreign_lineFeed.notMem_digits n

@[simp] theorem Literal.lineFeeds_text (literal : Literal) : lineFeeds literal.text = 0 := by
  cases literal with
  | int n => exact lineFeeds_eq_zero.mpr (foreign_lineFeed.notMem_integer n.toInt)
  | float x =>
    refine lineFeeds_eq_zero.mpr (foreign_lineFeed.notMem_write literalFloat x (by simp [literalFloat]) fun _ => ?_)
    simp only [literalFloat]
    split_ifs <;> decide
  | str content => exact lineFeeds_quoted content

@[simp] theorem lineFeeds_ofBytes (bytes : List UInt8) : lineFeeds (Hex.ofBytes bytes) = 0 :=
  lineFeeds_eq_zero.mpr (Hex.lineFeed_notMem_of_pairs? (Hex.toBytes?_ofBytes bytes))

@[simp] theorem Width.lineFeeds_text (width : Width) : lineFeeds width.text = 0 := by
  cases width with
  | bits count => exact lineFeeds_repr count
  | rest => rfl

theorem Control.lineFeeds_operands (color : Bool) (action : Control) :
    lineFeeds (action.operands (Palette.select color)) = 0 := by
  cases action with
  | setFlag flag setting =>
    have flags : lineFeeds flag.name = 0 := by cases flag <;> decide
    have settings : lineFeeds setting.name = 0 := by cases setting <;> decide
    simp [operands, flags, settings]
  | setLabel name => simp [operands]
  | defLabel name value =>
    have sign : lineFeeds " = " = 0 := by decide
    cases value <;> simp [operands, sign]
  | matchLabel name => simp [operands]
  | nestOpen => rfl
  | nestClose => rfl
  | assertion expected => simp [operands]

theorem Directive.lineFeeds_operands (color : Bool) (directive : Directive) :
    lineFeeds (directive.operands (Palette.select color)) = 0 := by
  have encodings (encoding : Encoding) : lineFeeds encoding.name = 0 := by cases encoding <;> decide
  cases directive with
  | value encoding width => simp [operands, encodings]
  | next width => simp [operands]
  | constant bit width => simp [operands]
  | mod change width =>
    have changes : lineFeeds change.name = 0 := by cases change <;> decide
    simp [operands, changes]
  | modOff change offset width =>
    have changes : lineFeeds change.name = 0 := by cases change <;> decide
    have plus : lineFeeds " +" = 0 := by decide
    simp [operands, changes, plus]
  | takeAll encoding => exact encodings encoding
  | jump origin bits =>
    have origins : lineFeeds origin.name = 0 := by cases origin <;> decide
    simp [operands, origins]
  | marker last bytes => simp [operands]
  | control action => exact action.lineFeeds_operands color

theorem Directive.lineFeeds_mnemonic (directive : Directive) : lineFeeds directive.mnemonic = 0 := by
  cases directive with
  | constant bit width => cases bit <;> simp [mnemonic, lineFeeds]
  | marker last bytes => cases last <;> simp [mnemonic, lineFeeds]
  | control action => cases action <;> simp [mnemonic, Control.mnemonic, lineFeeds]
  | _ => simp [mnemonic, lineFeeds]

@[simp] theorem Directive.lineFeeds_text (color : Bool) (directive : Directive) :
    lineFeeds (directive.text (Palette.select color)) = 0 := by
  rw [text, lineFeeds_append, Text.lineFeeds_mnemonic, directive.lineFeeds_mnemonic, Nat.zero_add]
  split_ifs
  · decide
  · rw [lineFeeds_append, directive.lineFeeds_operands, lineFeeds_blank]

/-! ## Rows -/

/-- Whether a text starts with a number that is right-aligned to some columns, and a blank after it. -/
def StartsWithNumber (columns n : Nat) (text : String) : Prop :=
  ∃ blanks rest, text.toList = List.replicate blanks ' ' ++ (Nat.toDigits 10 n ++ ' ' :: rest)
    ∧ blanks + (Nat.toDigits 10 n).length = columns

/-- A text with one line feed, at its end. -/
def IsLine (text : String) : Prop :=
  ∃ front, text = front ++ "\n" ∧ '\n' ∉ front.toList

/-- The row of an instruction: its index first, its text as it is, and a line feed last. Whatever else is in it has no line
feeds. -/
structure IsRow (columns index : Nat) (instruction : Instruction) (row : String) : Prop where
  starts : StartsWithNumber columns index row
  shows : ∃ front back, row = front ++ instruction.token ++ back ++ "\n" ∧ '\n' ∉ front.toList ∧ '\n' ∉ back.toList

/-- A text that is one line for each instruction, in order. Each starts with its index, right-aligned to as many columns as
the largest index has digits. -/
def Program.OneLineEach (program : Program) (listing : String) : Prop :=
  ∃ lines : List String, listing = String.join lines ∧ lines.length = program.size
    ∧ ∀ index line, lines[index]? = some line →
      IsLine line ∧ StartsWithNumber (Nat.toDigits 10 (program.size - 1)).length index line

section

variable {columns index m n : Nat} {instruction : Instruction} {row : String}

/-- A smaller number has no more digits. -/
theorem length_toDigits_mono (less : m ≤ n) : (Nat.toDigits 10 m).length ≤ (Nat.toDigits 10 n).length := by
  have bound : n < 10 ^ (Nat.toDigits 10 n).length :=
    (Nat.length_toDigits_le_iff (by decide) Nat.length_toDigits_pos).mp (Nat.le_refl _)
  exact (Nat.length_toDigits_le_iff (by decide) Nat.length_toDigits_pos).mpr (by omega)

theorem StartsWithNumber.append {text : String} (h : StartsWithNumber columns n text) (more : String) :
    StartsWithNumber columns n (text ++ more) := by
  obtain ⟨blanks, rest, text, size⟩ := h
  exact ⟨blanks, rest ++ more.toList, by simp [text], size⟩

theorem startsWithNumber_rightAligned (fits : (Nat.toDigits 10 n).length ≤ columns) :
    StartsWithNumber columns n (rightAligned columns n ++ "  ") :=
  ⟨columns - (Nat.toDigits 10 n).length, [' '], by simp [rightAligned], by omega⟩

@[simp] theorem lineFeeds_rightAligned (columns n : Nat) : lineFeeds (rightAligned columns n) = 0 := by
  rw [lineFeeds_eq_zero]
  simp [rightAligned, foreign_lineFeed.notMem_digits]

theorem IsLine.lineFeeds_eq (h : IsLine row) : lineFeeds row = 1 := by
  obtain ⟨front, rfl, none⟩ := h
  rw [lineFeeds_append, lineFeeds_eq_zero.mpr none]
  rfl

namespace IsRow

theorem lineFeeds_eq (h : IsRow columns index instruction row) : lineFeeds row = lineFeeds instruction.token + 1 := by
  obtain ⟨front, back, rfl, before, after⟩ := h.shows
  rw [lineFeeds_append, lineFeeds_append, lineFeeds_append, lineFeeds_eq_zero.mpr before, lineFeeds_eq_zero.mpr after,
    Nat.zero_add, Nat.add_zero]
  rfl

theorem isLine (h : IsRow columns index instruction row) (none : '\n' ∉ instruction.token.toList) : IsLine row := by
  obtain ⟨front, back, rfl, before, after⟩ := h.shows
  exact ⟨front ++ instruction.token ++ back, rfl, by simp [before, none, after]⟩

end IsRow

end

namespace Program

variable {program : Program} {columns index : Nat} {instruction : Instruction}

theorem isRow_line (color : Bool) (tokenWidth : Nat) (fits : (Nat.toDigits 10 index).length ≤ columns) :
    IsRow columns index instruction (line (Palette.select color) columns tokenWidth index instruction) where
  starts := ((((startsWithNumber_rightAligned fits).append _).append _).append _).append _
  shows := by
    refine ⟨rightAligned columns index ++ "  " ++ (Palette.select color).dim,
      String.ofList (List.replicate (tokenWidth - instruction.token.length) ' ') ++ (Palette.select color).reset ++ "  "
        ++ instruction.directive.text (Palette.select color), ?_, ?_, ?_⟩
    · simp only [line, Palette.faint, leftAligned, String.append_assoc]
    · rw [← lineFeeds_eq_zero]
      simp [lineFeeds_sequences]
    · rw [← lineFeeds_eq_zero]
      simp [lineFeeds_sequences]

/-- The rows of a listing. -/
def rows (program : Program) (palette : Palette) : List String :=
  program.instructions.mapIdx (line palette (indexColumns program.size) program.tokenColumns)

theorem isRow_of_rows {color : Bool} {row : String} (among : (program.rows (Palette.select color))[index]? = some row) :
    ∃ instruction, program.instructions[index]? = some instruction
      ∧ IsRow (Nat.toDigits 10 (program.size - 1)).length index instruction row := by
  rw [rows, List.getElem?_mapIdx, Option.map_eq_some_iff] at among
  obtain ⟨instruction, here, rfl⟩ := among
  have below : index < program.size := (List.getElem?_eq_some_iff.mp here).1
  exact ⟨instruction, here, isRow_line color _ (length_toDigits_mono (by omega))⟩

/-- The line feeds of a listing are those that end its rows and those in the texts of its instructions. -/
theorem lineFeeds_listing (program : Program) (color : Bool) :
    lineFeeds (program.listing (Palette.select color))
      = (program.instructions.map fun instruction => lineFeeds instruction.token).sum + program.size := by
  have each : (program.rows (Palette.select color)).map lineFeeds
      = program.instructions.map fun instruction => lineFeeds instruction.token + 1 := by
    refine List.ext_getElem? fun index => ?_
    rw [List.getElem?_map, List.getElem?_map]
    cases among : (program.rows (Palette.select color))[index]? with
    | none =>
      rw [rows, List.getElem?_mapIdx, Option.map_eq_none_iff] at among
      rw [among]
      rfl
    | some row =>
      obtain ⟨instruction, here, isRow⟩ := isRow_of_rows among
      rw [here, Option.map_some, Option.map_some, isRow.lineFeeds_eq]
  calc lineFeeds (program.listing (Palette.select color))
      = ((program.rows (Palette.select color)).map lineFeeds).sum := lineFeeds_join _
    _ = (program.instructions.map fun instruction => lineFeeds instruction.token + 1).sum := by rw [each]
    _ = _ := by rw [List.sum_map_add, List.map_const', List.sum_replicate, smul_eq_mul, Nat.mul_one, size]

/-- The rows are lines exactly if no instruction has a line feed in its text. -/
theorem oneLineEach_listing (program : Program) (color : Bool) :
    program.OneLineEach (program.listing (Palette.select color)) ↔
      ∀ instruction ∈ program.instructions, '\n' ∉ instruction.token.toList := by
  constructor
  · -- the line feeds counted in two ways: one for each line, and one for each row besides those of the tokens
    rintro ⟨lines, whole, count, each⟩ instruction member
    have one : ∀ feeds ∈ lines.map lineFeeds, feeds = 1 := by
      refine List.forall_mem_map.mpr fun line among => ?_
      obtain ⟨index, here⟩ := List.getElem?_of_mem among
      exact (each index line here).1.lineFeeds_eq
    have feeds := lineFeeds_listing program color
    rw [whole, lineFeeds_join, List.sum_eq_card_nsmul _ 1 one, List.length_map, count, smul_eq_mul, Nat.mul_one] at feeds
    have none : (program.instructions.map fun instruction => lineFeeds instruction.token).sum = 0 := by omega
    exact lineFeeds_eq_zero.mp (List.sum_eq_zero_iff.mp none _ (List.mem_map_of_mem member))
  · intro none
    refine ⟨program.rows (Palette.select color), rfl, List.length_mapIdx, fun index row among => ?_⟩
    obtain ⟨instruction, here, isRow⟩ := isRow_of_rows among
    exact ⟨isRow.isLine (none instruction (List.mem_of_getElem? here)), isRow.starts⟩

/-- A listing has one row for each instruction, in order and in both palettes. A row starts with its index, right-aligned to
as many columns as the largest index has digits, shows the text of the instruction as it is, and has no other line feeds than
those of this text and the one at its end. So the rows are lines exactly if no instruction has a line feed in its text. Those
that have one quote it, in a name or in a constant, or their pattern was broken between two of their tokens. -/
theorem listing_rows {text : String} {program : Program} (compiled : Pattern.compile text = .ok program) (color : Bool) :
    (∃ rows : List String, program.listing (Palette.select color) = String.join rows ∧ rows.length = program.size
      ∧ ∀ index row, rows[index]? = some row → ∃ instruction, program.instructions[index]? = some instruction
        ∧ IsRow (Nat.toDigits 10 (program.size - 1)).length index instruction row)
    ∧ (program.OneLineEach (program.listing (Palette.select color)) ↔
      ∀ instruction ∈ program.instructions, '\n' ∉ instruction.token.toList)
    ∧ ∀ instruction ∈ program.instructions, ('\n' ∈ instruction.token.toList ↔
      instruction.directive.QuotesLineFeed
        ∨ ∃ front back, text.toList = front ++ '\n' :: back ∧ instruction.span.Covers (Text.utf8Length front)
          ∧ ∀ token ∈ Pattern.tokens text.toList, ¬ token.span.Covers (Text.utf8Length front)) :=
  ⟨⟨program.rows (Palette.select color), rfl, List.length_mapIdx, fun _ _ => isRow_of_rows⟩,
    oneLineEach_listing program color, fun _ => Pattern.lineFeed_mem_token compiled⟩

/-- Two of three rows are no lines: one instruction is broken between its tokens, and one has a name of two lines. -/
theorem listing_rows_broken :
    let program : Program := ⟨[⟨"u8", ⟨0, 2⟩, .value .uint (.bits 8)⟩, ⟨"=\n5;", ⟨3, 7⟩, .control (.assertion (.int 5))⟩,
      ⟨"#\"a\nb\"", ⟨8, 14⟩, .control (.defLabel "a\nb" none)⟩]⟩
    Pattern.compile "u8 =\n5; #\"a\nb\"" = .ok program
      ∧ program.listing Palette.plain
        = "0  u8      VALUE uint 8\n1  =\n5;    ASSERTION 5\n2  #\"a\nb\"  DEFLABEL \"a\\nb\"\n"
      ∧ (∃ rows : List String, program.listing Palette.plain = String.join rows ∧ rows.length = 3)
      ∧ ¬ program.OneLineEach (program.listing Palette.plain) := by
  intro program
  have compiled : Pattern.compile "u8 =\n5; #\"a\nb\"" = .ok program := by cbv
  have shown : program.listing Palette.plain
      = "0  u8      VALUE uint 8\n1  =\n5;    ASSERTION 5\n2  #\"a\nb\"  DEFLABEL \"a\\nb\"\n" := by decide +kernel
  obtain ⟨⟨rows, whole, count, _⟩, lines, _⟩ := listing_rows compiled false
  refine ⟨compiled, shown, ⟨rows, whole, count⟩, fun oneLineEach => ?_⟩
  exact absurd (lines.mp oneLineEach ⟨"=\n5;", ⟨3, 7⟩, .control (.assertion (.int 5))⟩ (by simp [program])) (by decide)

/-- An assertion that is broken after its equals sign has two lines in the listing, in both palettes. -/
theorem listing_row_split :
    let program : Program := ⟨[⟨"=\n5;", ⟨0, 4⟩, .control (.assertion (.int 5))⟩]⟩
    Pattern.compile "=\n5;" = .ok program ∧ program.listing Palette.plain = "0  =\n5;  ASSERTION 5\n"
      ∧ ∀ color, lineFeeds (program.listing (Palette.select color)) = 2
        ∧ ¬ program.OneLineEach (program.listing (Palette.select color)) := by
  intro program
  have compiled : Pattern.compile "=\n5;" = .ok program := by cbv
  have shown : program.listing Palette.plain = "0  =\n5;  ASSERTION 5\n" := by cbv
  refine ⟨compiled, shown, fun color => ⟨lineFeeds_listing program color, fun oneLineEach => ?_⟩⟩
  exact absurd ((oneLineEach_listing program color).mp oneLineEach _ List.mem_cons_self) (by decide)

end Program

end BitTemplate
