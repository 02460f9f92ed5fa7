import BitTemplate.Field.Encoding
import BitTemplate.Field.Width
import BitTemplate.Value

/-!
Programs. A pattern compiles to a list of instructions that decoder and encoder go through from the first to the last;
repetition is already written out. A directive either moves bits, or it opens windows on them, or it only looks after
the record of values: flags, labels, brackets and assertions.
-/

namespace BitTemplate

/-! ## Operands -/

/-- A constant in a pattern. -/
inductive Literal where
  | int (n : BitVec 128)
  | float (x : Double)
  | str (content : String)

/-- The value of a constant; an integer that is not negative is unsigned. -/
def Literal.toValue : Literal → Value
  | .int n => if 0 ≤ n.toInt then .uint n else .sint n
  | .float x => .float x
  | .str content => .text content

/-- Whether a value is the same as a constant. -/
def Literal.matches (literal : Literal) (value : Value) : Bool :=
  literal.toValue.same value

/-- A one-time change of the window at the cursor. -/
inductive CursorChange where
  | reverse
  | invert
  /-- The bytes of the window in reverse order. -/
  | endianSwap
deriving DecidableEq, Repr

/-- A one-time change of a window at a distance from the cursor. -/
inductive OffsetChange where
  | reverse
  | invert
  /-- The window moves to the cursor, before the bits that were skipped. -/
  | pull
deriving DecidableEq, Repr

/-- A lasting change of every field. -/
inductive Flag where
  | reverseAll
  | invertAll
  | endianSwapAll
deriving DecidableEq, Repr

/-- What happens to a flag. -/
inductive Setting where
  | set
  | clear
  | toggle
deriving DecidableEq, Repr

/-- The flag after a setting. -/
def Setting.apply : Setting → Bool → Bool
  | .set, _ => true
  | .clear, _ => false
  | .toggle, current => !current

/-- Where a jump starts to count, in positions on the wire. -/
inductive JumpOrigin where
  | start
  | forward
  | backward
  | stop
deriving DecidableEq, Repr

/-! ## Directives -/

/-- What a directive does to the record of values. -/
inductive Control where
  | setFlag (flag : Flag) (setting : Setting)
  /-- Binds a label to the last value. -/
  | setLabel (name : String)
  /-- Gives a label an entry of its own, with or without a value. -/
  | defLabel (name : String) (value : Option Literal)
  /-- Compares the last value with the one of a label. -/
  | matchLabel (name : String)
  | nestOpen
  | nestClose
  /-- Compares the last value with a constant. -/
  | assertion (expected : Literal)

/-- What an instruction does. -/
inductive Directive where
  | value (encoding : Encoding) (width : Width)
  /-- Bits that do not matter. -/
  | next (width : Nat)
  /-- Bits that are all zero or all one. -/
  | constant (bit : Bool) (width : Nat)
  | mod (change : CursorChange) (width : Width)
  | modOff (change : OffsetChange) (offset : Nat) (width : Width)
  /-- Everything up to the end of the data, from a byte boundary on. -/
  | takeAll (encoding : Encoding)
  | jump (origin : JumpOrigin) (bits : Nat)
  /-- Everything up to the first or the last occurrence of some bytes, and those bytes. -/
  | marker (last : Bool) (bytes : List UInt8)
  | control (action : Control)

/-! ## Programs -/

/-- A part of a text by its byte offsets. -/
structure Span where
  start : Nat
  stop : Nat
deriving DecidableEq, Repr

/-- A directive and the part of the pattern that it comes from. -/
structure Instruction where
  token : String
  span : Span
  directive : Directive

/-- A compiled pattern. -/
structure Program where
  instructions : List Instruction

/-- The number of instructions. -/
def Program.size (program : Program) : Nat :=
  program.instructions.length

end BitTemplate
