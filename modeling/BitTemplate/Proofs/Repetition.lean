import BitTemplate.Proofs.Bits
import BitTemplate.Proofs.Statements

/-!
Repetition is written out. A pattern reads as items and blocks, which hold items and blocks themselves; the compiler goes
through its tokens once, with the open blocks on a stack. The main statement says that both are the same: a pattern
compiles exactly if it can be read and no list gets longer than the limit, and its program is the items in order, with as
many copies of a block's body as its count says.
-/

namespace BitTemplate.Pattern

/-! ## Parts -/

/-- What a pattern reads as: one item after the other, and blocks with the numbers of copies of their bodies. -/
inductive Parts (α : Type) where
  | nil
  | item (first : α) (rest : Parts α)
  | block (body : Parts α) (count : Nat) (rest : Parts α)

namespace Parts

variable {α : Type}

/-- The items, with each block's body as often as its count says. -/
def expand : Parts α → List α
  | nil => []
  | item first rest => first :: rest.expand
  | block body count rest => (List.replicate count body.expand).flatten ++ rest.expand

example : (Parts.item 1 (.block (.item 2 (.block (.item 3 .nil) 2 .nil)) 2 (.block .nil 9 .nil))).expand = [1, 2, 3, 3, 2, 3, 3] :=
  by decide

/-- In no block the body or its copies are longer than a limit. -/
def BlocksFit (limit : Nat) : Parts α → Prop
  | nil => True
  | item _ rest => rest.BlocksFit limit
  | block body count rest =>
    (body.BlocksFit limit ∧ body.expand.length ≤ limit) ∧ count * body.expand.length ≤ limit ∧ rest.BlocksFit limit

/-- Nothing is longer than a limit: no body of a block, no copies of one, and not the whole. -/
def Fits (limit : Nat) (parts : Parts α) : Prop :=
  parts.BlocksFit limit ∧ parts.expand.length ≤ limit

end Parts

/-- The number of copies that the text after a closing brace asks for: one without a text, else a number of at most
64 bits. -/
inductive Copies : List Char → Nat → Prop
  | once : Copies [] 1
  | times {digits : List Char} (some : digits ≠ []) (finite : digits ≠ ['$']) (bound : decimal digits < 2 ^ 64) :
      Copies digits (decimal digits)

/-- How tokens read as parts. Comments are no part of anything. -/
inductive Reads (source : List Char) : List Token → Parts Instruction → Prop
  | nil : Reads source [] .nil
  | comment {token : Token} {tokens : List Token} {parts : Parts Instruction} (kind : token.kind = .comment)
      (rest : Reads source tokens parts) : Reads source (token :: tokens) parts
  | item {front tokens : List Token} {first : Instruction} {parts : Parts Instruction} (item : Item source front first)
      (ends : EndsBefore front tokens) (rest : Reads source tokens parts) :
      Reads source (front ++ tokens) (.item first parts)
  | block {opening closing : Token} {inner tokens : List Token} {body parts : Parts Instruction} {count : Nat}
      (opens : opening.kind = .braceOpen) (inside : Reads source inner body) (closes : closing.kind = .braceClose)
      (copies : Copies ((closing.text source).drop 1) count) (rest : Reads source tokens parts) :
      Reads source (opening :: (inner ++ closing :: tokens)) (.block body count parts)

/-! ## Layers -/

theorem copies_ok {text : List Char} {n : Nat} :
    text ≠ ['$'] ∧ copies text = .ok n ↔ Copies text n := by
  constructor
  · rintro ⟨finite, asked⟩
    simp only [copies] at asked
    split at asked
    · rename_i empty
      cases asked
      rw [List.isEmpty_iff.mp empty]
      exact .once
    · rename_i some
      simp only [count] at asked
      split at asked
      · rename_i bound
        cases asked
        exact .times (by simpa using some) finite bound
      · cases asked
  · intro h
    cases h with
    | once => exact ⟨by decide, rfl⟩
    | times some finite bound =>
      refine ⟨finite, ?_⟩
      rw [copies, if_neg (by simpa using some)]
      exact if_pos bound

namespace Layers

/-- The instructions in the innermost block, or outside of all blocks. -/
def innermost (layers : Layers) : Array Instruction :=
  match layers.blocks with
  | [] => layers.outside
  | block :: _ => block.body

/-- The layers with more instructions in the innermost one. -/
def extend (layers : Layers) (more : List Instruction) : Layers :=
  match layers with
  | ⟨outside, []⟩ => ⟨outside ++ more.toArray, []⟩
  | ⟨outside, ⟨opening, body⟩ :: blocks⟩ => ⟨outside, ⟨opening, body ++ more.toArray⟩ :: blocks⟩

variable {layers next : Layers} {more : List Instruction}

@[simp] theorem size_innermost_extend (layers : Layers) (more : List Instruction) :
    (layers.extend more).innermost.size = layers.innermost.size + more.length := by
  obtain ⟨outside, _ | ⟨⟨opening, body⟩, blocks⟩⟩ := layers <;> simp [extend, innermost]

@[simp] theorem extend_nil (layers : Layers) : layers.extend [] = layers := by
  obtain ⟨outside, _ | ⟨⟨opening, body⟩, blocks⟩⟩ := layers <;> simp [extend]

@[simp] theorem extend_extend (layers : Layers) (first second : List Instruction) :
    (layers.extend first).extend second = layers.extend (first ++ second) := by
  obtain ⟨outside, _ | ⟨⟨opening, body⟩, blocks⟩⟩ := layers <;> simp [extend]

/-- More instructions are added as long as the layer stays within the limit. -/
theorem add_ok {instructions : Array Instruction} :
    layers.add instructions = .ok next ↔
      layers.innermost.size + instructions.size ≤ maxInstructions ∧ next = layers.extend instructions.toList := by
  obtain ⟨outside, _ | ⟨⟨opening, body⟩, blocks⟩⟩ := layers
  · simp only [add, innermost, extend, Array.toArray_toList]
    split <;> simp only [reduceCtorEq, Except.ok.injEq, false_iff] <;> grind
  · simp only [add, innermost, extend, Array.toArray_toList]
    split <;> simp only [reduceCtorEq, Except.ok.injEq, false_iff] <;> grind

end Layers

theorem toList_repeated (count : Nat) (body : Array Instruction) :
    (repeated count body).toList = (List.replicate count body.toList).flatten := by
  simp only [repeated]
  split
  · rename_i empty
    simp [Array.isEmpty_iff.mp empty]
  · simp

/-- The end of a block adds the copies of its body to the layer around it, as long as there is room. -/
theorem closeBlock_ok {source text : List Char} {span : Span} {outside : Array Instruction} {block : Block}
    {blocks : List Block} {next : Layers} :
    closeBlock source ⟨outside, block :: blocks⟩ text span = .ok next ↔
      ∃ count, Copies text count ∧ count * block.body.size ≤ maxInstructions
        ∧ (Layers.mk outside blocks).innermost.size + count * block.body.size ≤ maxInstructions
        ∧ next = (Layers.mk outside blocks).extend (List.replicate count block.body.toList).flatten := by
  have size (count : Nat) : (repeated count block.body).size = count * block.body.size := by
    rw [← Array.length_toList, toList_repeated]
    simp
  simp only [closeBlock]
  constructor
  · intro h
    split at h
    · cases h
    · rename_i finite
      simp only [except_bind_ok, except_mapError_ok] at h
      obtain ⟨count, asked, h⟩ := h
      split at h
      · cases h
      · rename_i bound
        rw [except_mapError_ok, Layers.add_ok, size, toList_repeated] at h
        rw [Nat.not_lt, Nat.mul_comm] at bound
        exact ⟨count, copies_ok.mp ⟨finite, asked⟩, bound, h⟩
  · rintro ⟨count, asks, bound, room, rfl⟩
    obtain ⟨finite, asked⟩ := copies_ok.mpr asks
    rw [if_neg finite]
    refine except_bind_ok.mpr ⟨count, except_mapError_ok.mpr asked, ?_⟩
    rw [if_neg (by rw [Nat.not_lt, Nat.mul_comm]; exact bound), except_mapError_ok, Layers.add_ok, size, toList_repeated]
    exact ⟨room, rfl⟩

/-! ## Runs -/

/-- The layers after the statements of all tokens. -/
def addAll (source : List Char) (layers : Layers) (tokens : List Token) : Except PatternError Layers :=
  addTokens source tokens.length layers tokens

section

variable {source : List Char} {layers : Layers} {tokens : List Token}

/-- Every statement takes a token, so fuel for all tokens is enough. -/
theorem addTokens_fuel {fuel fuel' : Nat} (enough : tokens.length ≤ fuel) (enough' : tokens.length ≤ fuel') :
    addTokens source fuel layers tokens = addTokens source fuel' layers tokens := by
  induction fuel generalizing fuel' layers tokens with
  | zero =>
    obtain rfl := List.eq_nil_of_length_eq_zero (Nat.le_zero.mp enough)
    cases fuel' <;> rfl
  | succ fuel ih =>
    cases tokens with
    | nil => cases fuel' <;> rfl
    | cons token tokens =>
      obtain ⟨fuel', rfl⟩ : ∃ less, fuel' = less + 1 := Nat.exists_eq_add_one.mpr (Nat.lt_of_lt_of_le (Nat.succ_pos _) enough')
      rw [List.length_cons, Nat.add_le_add_iff_right] at enough enough'
      simp only [addTokens]
      cases read : readStatement source token tokens with
      | error e => rfl
      | ok result =>
        obtain ⟨statement, span, rest⟩ := result
        have fewer := (readStatement_suffix read).length_le
        have same (next : Layers) : addTokens source fuel next rest = addTokens source fuel' next rest :=
          ih (Nat.le_trans fewer enough) (Nat.le_trans fewer enough')
        show (addStatement source layers statement span >>= fun next => addTokens source fuel next rest) = _
        exact bind_congr same

theorem addAll_cons {token : Token} :
    addAll source layers (token :: tokens) = (do
      let (statement, span, rest) ← readStatement source token tokens
      addAll source (← addStatement source layers statement span) rest) := by
  rw [addAll, List.length_cons]
  simp only [addTokens]
  cases read : readStatement source token tokens with
  | error e => rfl
  | ok result =>
    obtain ⟨statement, span, rest⟩ := result
    have same (next : Layers) : addTokens source tokens.length next rest = addAll source next rest :=
      addTokens_fuel (readStatement_suffix read).length_le (Nat.le_refl _)
    show (addStatement source layers statement span >>= fun next => addTokens source tokens.length next rest) = _
    exact bind_congr same

theorem addAll_cons_ok {token : Token} {last : Layers} :
    addAll source layers (token :: tokens) = .ok last ↔
      ∃ statement span rest next, readStatement source token tokens = .ok (statement, span, rest)
        ∧ addStatement source layers statement span = .ok next ∧ addAll source next rest = .ok last := by
  simp only [addAll_cons, except_bind_ok, Prod.exists]
  constructor
  · rintro ⟨statement, span, rest, read, next, added, more⟩
    exact ⟨statement, span, rest, next, read, added, more⟩
  · rintro ⟨statement, span, rest, next, read, added, more⟩
    exact ⟨statement, span, rest, read, next, added, more⟩

end

/-! ## Layers of readings -/

section

variable {source : List Char} {layers next last : Layers} {tokens more : List Token} {parts : Parts Instruction}

theorem addStatement_directive_ok {directive : Directive} {span : Span} :
    addStatement source layers (.directive directive) span = .ok next ↔
      layers.innermost.size + 1 ≤ maxInstructions ∧ next = layers.extend [instructionAt source span directive] := by
  rw [addStatement, except_mapError_ok, Layers.add_ok]
  rfl

/-- Tokens that read as parts add these to the innermost layer, where nothing gets longer than the limit. -/
theorem Reads.addAll (h : Reads source tokens parts) (blocks : parts.BlocksFit maxInstructions)
    (room : layers.innermost.size + parts.expand.length ≤ maxInstructions)
    (stops : more.head?.map Token.kind ≠ some .equals) :
    addAll source layers (tokens ++ more) = addAll source (layers.extend parts.expand) more := by
  induction h generalizing layers more with
  | nil => rw [Parts.expand, Layers.extend_nil, List.nil_append]
  | comment kind rest ih =>
    rw [List.cons_append, addAll_cons, readStatement_comment.mpr ⟨kind, rfl, rfl⟩]
    exact ih blocks room stops
  | @item front tokens first parts item ends rest ih =>
    obtain ⟨token, front, rfl⟩ := List.exists_cons_of_ne_nil item.ne_nil
    obtain ⟨span, directive, rfl⟩ := item.exists_directive
    have ends' : EndsBefore (token :: front) (tokens ++ more) := by
      intro define
      cases tokens with
      | nil => exact stops
      | cons next tokens => exact ends define
    have read : readStatement source token (front ++ (tokens ++ more)) = .ok (.directive directive, span, tokens ++ more) :=
      readStatement_directive.mpr ⟨token :: front, rfl, item, ends'⟩
    simp only [Parts.expand, List.length_cons] at room
    have added : addStatement source layers (.directive directive) span
        = .ok (layers.extend [instructionAt source span directive]) :=
      addStatement_directive_ok.mpr ⟨by omega, rfl⟩
    have later : Pattern.addAll source (layers.extend [instructionAt source span directive]) (tokens ++ more) = _ :=
      ih blocks (by rw [Layers.size_innermost_extend, List.length_singleton]; omega) stops
    rw [Layers.extend_extend] at later
    rw [List.append_assoc, List.cons_append, addAll_cons, read]
    exact Eq.trans (congrArg (· >>= fun next => Pattern.addAll source next (tokens ++ more)) added) later
  | @block opening closing inner tokens body parts count opens inside closes copies rest ihInner ih =>
    obtain ⟨⟨bodyBlocks, bodyFits⟩, copiesFit, restBlocks⟩ := blocks
    have length : (List.replicate count body.expand).flatten.length = count * body.expand.length := by simp
    rw [Parts.expand, List.length_append, length] at room
    have opened : Pattern.addAll source ⟨layers.outside, ⟨opening.span, #[]⟩ :: layers.blocks⟩
          (inner ++ closing :: (tokens ++ more))
        = Pattern.addAll source ⟨layers.outside, ⟨opening.span, #[] ++ body.expand.toArray⟩ :: layers.blocks⟩
          (closing :: (tokens ++ more)) :=
      ihInner bodyBlocks (by simpa [Layers.innermost] using bodyFits) (by simp [closes])
    have closed : closeBlock source ⟨layers.outside, ⟨opening.span, #[] ++ body.expand.toArray⟩ :: layers.blocks⟩
          ((closing.text source).drop 1) closing.span
        = .ok (layers.extend (List.replicate count body.expand).flatten) := by
      refine closeBlock_ok.mpr ⟨count, copies, by simpa using copiesFit, ?_, by simp⟩
      rw [Array.empty_append, List.size_toArray]
      show layers.innermost.size + count * body.expand.length ≤ maxInstructions
      omega
    have later : Pattern.addAll source (layers.extend (List.replicate count body.expand).flatten) (tokens ++ more) = _ :=
      ih restBlocks (by rw [Layers.size_innermost_extend, length]; omega) stops
    rw [Layers.extend_extend] at later
    rw [List.cons_append, List.append_assoc, List.cons_append, addAll_cons, readStatement_openBlock.mpr ⟨opens, rfl, rfl⟩]
    refine opened.trans ?_
    rw [addAll_cons, readStatement_closeBlock.mpr ⟨closes, rfl, rfl, rfl⟩]
    exact Eq.trans (congrArg (· >>= fun next => Pattern.addAll source next (tokens ++ more)) closed) later

/-- Tokens read as parts up to the closing brace of the innermost block or up to the end, and with the parts added the
compiler goes on from there. -/
def ReadsFrom (source : List Char) (layers last : Layers) (tokens : List Token) : Prop :=
  ∃ inner rest parts, tokens = inner ++ rest ∧ Reads source inner parts ∧ parts.BlocksFit maxInstructions
    ∧ layers.innermost.size + parts.expand.length ≤ maxInstructions
    ∧ addAll source (layers.extend parts.expand) rest = .ok last
    ∧ ∀ closing ∈ rest.head?, closing.kind = .braceClose

/-- Nothing is read where the tokens end or a block does. -/
theorem ReadsFrom.nil (run : addAll source layers tokens = .ok last) (room : layers.innermost.size ≤ maxInstructions)
    (brace : ∀ closing ∈ tokens.head?, closing.kind = .braceClose) : ReadsFrom source layers last tokens :=
  ⟨[], tokens, .nil, rfl, .nil, trivial, room, by rwa [Parts.expand, Layers.extend_nil], brace⟩

theorem ReadsFrom.comment {token : Token} (kind : token.kind = .comment) (h : ReadsFrom source layers last tokens) :
    ReadsFrom source layers last (token :: tokens) := by
  obtain ⟨inner, rest, parts, rfl, reads, found⟩ := h
  exact ⟨token :: inner, rest, parts, rfl, .comment kind reads, found⟩

theorem ReadsFrom.item {front : List Token} {first : Instruction} (item : Item source front first)
    (ends : EndsBefore front tokens) (h : ReadsFrom source (layers.extend [first]) last tokens) :
    ReadsFrom source layers last (front ++ tokens) := by
  obtain ⟨inner, rest, parts, rfl, reads, blocks, fits, run, brace⟩ := h
  rw [Layers.size_innermost_extend, List.length_singleton] at fits
  rw [Layers.extend_extend] at run
  refine ⟨front ++ inner, rest, .item first parts, by rw [List.append_assoc], .item item ?_ reads, blocks, ?_, run, brace⟩
  · intro define
    cases inner with
    | nil => simp
    | cons next inner => exact ends define
  · rw [Parts.expand, List.length_cons]
    omega

theorem ReadsFrom.block {opening closing : Token} {inner : List Token} {body : Parts Instruction} {count : Nat}
    (opens : opening.kind = .braceOpen) (inside : Reads source inner body) (closes : closing.kind = .braceClose)
    (copies : Copies ((closing.text source).drop 1) count)
    (bodyFits : body.BlocksFit maxInstructions ∧ body.expand.length ≤ maxInstructions)
    (copiesFit : count * body.expand.length ≤ maxInstructions)
    (h : ReadsFrom source (layers.extend (List.replicate count body.expand).flatten) last tokens) :
    ReadsFrom source layers last (opening :: (inner ++ closing :: tokens)) := by
  have length : (List.replicate count body.expand).flatten.length = count * body.expand.length := by simp
  obtain ⟨inner', rest, parts, rfl, reads, blocks, fits, run, brace⟩ := h
  rw [Layers.size_innermost_extend, length] at fits
  rw [Layers.extend_extend] at run
  refine ⟨opening :: (inner ++ closing :: inner'), rest, .block body count parts, by simp,
    .block opens inside closes copies reads, ⟨bodyFits, copiesFit, blocks⟩, ?_, run, brace⟩
  rw [Parts.expand, List.length_append, length, ← Nat.add_assoc]
  exact fits

/-- What the compiler goes through until no block is open, it reads. -/
theorem exists_reads (run : addAll source layers tokens = .ok last) (closed : last.blocks = [])
    (room : layers.innermost.size ≤ maxInstructions) : ReadsFrom source layers last tokens := by
  induction length : tokens.length using Nat.strongRecOn generalizing layers tokens with
  | ind n ih =>
    subst length
    cases tokens with
    | nil => exact .nil run room (by simp)
    | cons token tokens =>
      obtain ⟨statement, span, rest, next, read, added, more⟩ := addAll_cons_ok.mp run
      have fewer : rest.length < (token :: tokens).length := Nat.lt_succ_of_le (readStatement_suffix read).length_le
      cases statement with
      | directive directive =>
        obtain ⟨front, split, item, ends⟩ := readStatement_directive.mp read
        obtain ⟨room', rfl⟩ := addStatement_directive_ok.mp added
        rw [split]
        exact .item item ends (ih _ fewer more (by simpa using room') rfl)
      | comment =>
        obtain ⟨kind, _, rfl⟩ := readStatement_comment.mp read
        cases added
        exact .comment kind (ih _ fewer more room rfl)
      | closeBlock text =>
        obtain ⟨closes, _, _, _⟩ := readStatement_closeBlock.mp read
        exact .nil run room (by simpa using closes)
      | openBlock =>
        obtain ⟨opens, _, rfl⟩ := readStatement_openBlock.mp read
        cases added
        obtain ⟨inner, rest, body, rfl, inside, blocks, fits, more, brace⟩ := ih _ fewer more (Nat.zero_le _) rfl
        have expanded : #[] ++ body.expand.toArray = body.expand.toArray := Array.empty_append
        simp only [Layers.extend, expanded] at more
        cases rest with
        | nil =>
          -- the block that was opened here is still open at the end
          cases more
          cases closed
        | cons closing rest =>
          have closes := brace closing rfl
          obtain ⟨_, _, _, next, readClosing, added, more⟩ := addAll_cons_ok.mp more
          rw [readStatement_closeBlock.mpr ⟨closes, rfl, rfl, rfl⟩] at readClosing
          cases readClosing
          obtain ⟨count, copies, copiesFit, room', rfl⟩ := closeBlock_ok.mp added
          have bodyFits : body.expand.length ≤ maxInstructions := by simpa [Layers.innermost] using fits
          have shorter : rest.length < (token :: (inner ++ closing :: rest)).length := by simp; omega
          refine .block opens inside closes copies ⟨blocks, bodyFits⟩ copiesFit (ih _ shorter more ?_ rfl)
          simpa using room'

end

theorem compile_ok {text : String} {program : Program} :
    compile text = .ok program ↔
      ∃ outside, addAll text.toList ⟨#[], []⟩ (tokens text.toList) = .ok ⟨outside, []⟩
        ∧ program.instructions = outside.toList := by
  simp only [compile, except_bind_ok]
  constructor
  · rintro ⟨⟨outside, blocks⟩, run, h⟩
    cases blocks with
    | nil =>
      cases h
      exact ⟨outside, run, rfl⟩
    | cons block blocks => cases h
  · rintro ⟨outside, run, same⟩
    refine ⟨_, run, ?_⟩
    rw [← same]
    rfl

/-- A pattern compiles exactly if it can be read and fits. -/
theorem compile_iff {text : String} {program : Program} :
    compile text = .ok program ↔
      ∃ parts, Reads text.toList (tokens text.toList) parts ∧ parts.Fits maxInstructions
        ∧ program.instructions = parts.expand := by
  rw [compile_ok]
  constructor
  · rintro ⟨outside, run, same⟩
    obtain ⟨inner, rest, parts, split, reads, blocks, fits, more, brace⟩ := exists_reads run rfl (Nat.zero_le _)
    cases rest with
    | nil =>
      rw [List.append_nil] at split
      have whole : #[] ++ parts.expand.toArray = outside := congrArg Layers.outside (Except.ok.inj more)
      rw [split, same, ← whole]
      exact ⟨parts, reads, ⟨blocks, by simpa [Layers.innermost] using fits⟩, by simp⟩
    | cons closing rest =>
      -- there is no block that this brace closes
      obtain ⟨_, _, _, _, read, added, _⟩ := addAll_cons_ok.mp more
      rw [readStatement_closeBlock.mpr ⟨brace closing rfl, rfl, rfl, rfl⟩] at read
      cases read
      cases added
  · rintro ⟨parts, reads, ⟨blocks, fits⟩, same⟩
    have run : addAll text.toList ⟨#[], []⟩ (tokens text.toList ++ []) = .ok ⟨#[] ++ parts.expand.toArray, []⟩ :=
      reads.addAll blocks (by simpa [Layers.innermost] using fits) (by simp)
    rw [List.append_nil] at run
    exact ⟨_, run, by simpa using same⟩

/-- Every instruction of a program is made of tokens of its pattern, also in the copies of a block. -/
theorem Reads.exists_item {source : List Char} {tokens : List Token} {parts : Parts Instruction}
    (h : Reads source tokens parts) :
    ∀ instruction ∈ parts.expand, ∃ before front rest, tokens = before ++ (front ++ rest)
      ∧ Item source front instruction ∧ EndsBefore front rest := by
  induction h with
  | nil => exact List.forall_mem_nil _
  | @comment token _ _ _ _ ih =>
    intro instruction member
    obtain ⟨before, front, rest, rfl, found⟩ := ih instruction member
    exact ⟨token :: before, front, rest, rfl, found⟩
  | @item front tokens _ _ item ends _ ih =>
    refine List.forall_mem_cons.mpr ⟨⟨[], front, tokens, rfl, item, ends⟩, fun instruction member => ?_⟩
    obtain ⟨before, inside, rest, rfl, found⟩ := ih instruction member
    exact ⟨front ++ before, inside, rest, by rw [List.append_assoc], found⟩
  | @block opening closing inner tokens _ _ _ _ _ closes _ _ ihInner ih =>
    intro instruction member
    rcases List.mem_append.mp member with copied | later
    · obtain ⟨copy, repeated, inside⟩ := List.mem_flatten.mp copied
      obtain rfl := (List.mem_replicate.mp repeated).2
      obtain ⟨before, front, rest, rfl, item, ends⟩ := ihInner instruction inside
      refine ⟨opening :: before, front, rest ++ closing :: tokens, by simp, item, fun define => ?_⟩
      cases rest with
      | nil => simp [closes]
      | cons next rest => exact ends define
    · obtain ⟨before, front, rest, rfl, found⟩ := ih instruction later
      exact ⟨opening :: (inner ++ closing :: before), front, rest, by simp, found⟩

/-- Repetition is written out. A pattern compiles to a program exactly if its tokens read as items and blocks, where each
item means something by itself and each block has a number of copies, nothing is longer than the limit, and the program is
the items in order with all blocks as often as their counts say. So no program is longer than the limit, and a block with
nothing in it adds nothing, whatever its count. -/
theorem compile_expands (text : String) (program : Program) :
    (compile text = .ok program ↔
      ∃ parts, Reads text.toList (tokens text.toList) parts ∧ parts.Fits (2 ^ 20) ∧ program.instructions = parts.expand)
    ∧ (compile text = .ok program → program.size ≤ 2 ^ 20)
    ∧ ∀ (body rest : Parts Instruction) count, body.expand = [] → (body.block count rest).expand = rest.expand := by
  have limit : maxInstructions = 2 ^ 20 := rfl
  refine ⟨limit ▸ compile_iff, fun compiled => ?_, fun body rest count empty => ?_⟩
  · obtain ⟨parts, _, fits, same⟩ := compile_iff.mp compiled
    rw [Program.size, same, ← limit]
    exact fits.2
  · simp [Parts.expand, empty]

end BitTemplate.Pattern
