import BitTemplate.Run.Fault

/-!
Windows: the transforms that reverse the byte order of some bits, that pull a later window to the front, and that a
directive or the flags ask for. Each is a list of reversals and inversions, to be applied first to last. Sums with the
numbers of a directive are words, so that an offset near the end of the words leads back to a window behind the cursor.
-/

namespace BitTemplate

namespace Transform

/-- Reverses the order of the bytes: the whole window, then each byte back again. -/
def endianSwap (start width : Nat) : Except Fault (List Transform) :=
  if width % 8 ≠ 0 then .error (.partialBytes width)
  else .ok (reverse start width :: (List.range (width / 8)).map fun k => reverse (start + 8 * k) 8)

/-- Moves the window that lies `offset` bits past `start` to `start`, before the bits that were skipped. -/
def pull (start offset : Nat) : Width → List Transform
  | .bits count =>
    [window .reverse start (.bits (wordSum offset count)), window .reverse start (.bits count),
      window .reverse (wordSum start count) (.bits offset)]
  | .rest =>
    [⟨.reverse, .fixed start, .fromEnd 0⟩, ⟨.reverse, .fixed start, .fromEnd offset⟩,
      ⟨.reverse, .fromEnd offset, .fromEnd 0⟩]

/-- The transforms of a change at the cursor. -/
def atCursor (change : CursorChange) (position : Nat) (width : Width) : Except Fault (List Transform) :=
  match change, width with
  | .reverse, width => .ok [window .reverse position width]
  | .invert, width => .ok [window .invert position width]
  | .endianSwap, .bits count => endianSwap position count
  | .endianSwap, .rest => .error .openEndedSwap

/-- The transforms of a change at a distance from the cursor. -/
def atOffset (change : OffsetChange) (position offset : Nat) (width : Width) : List Transform :=
  match change with
  | .reverse => [window .reverse (wordSum position offset) width]
  | .invert => [window .invert (wordSum position offset) width]
  | .pull => pull position offset width

end Transform

/-- The lasting changes of every field. -/
structure Flags where
  reverseAll : Bool
  invertAll : Bool
  endianSwapAll : Bool
deriving DecidableEq, Repr

namespace Flags

/-- No changes. -/
def none : Flags := ⟨false, false, false⟩

/-- The flags after a setting of one of them. -/
def apply (flags : Flags) (flag : Flag) (setting : Setting) : Flags :=
  match flag with
  | .reverseAll => { flags with reverseAll := setting.apply flags.reverseAll }
  | .invertAll => { flags with invertAll := setting.apply flags.invertAll }
  | .endianSwapAll => { flags with endianSwapAll := setting.apply flags.endianSwapAll }

/-- The transforms of a field: its reversal, its inversion and, except in text, the swap of its bytes. -/
def transforms (flags : Flags) (start width : Nat) (encoding : Encoding) : Except Fault (List Transform) := do
  let reversal := if flags.reverseAll then [Transform.reverse start width] else []
  let inversion := if flags.invertAll then [Transform.invert start width] else []
  let swap ← if flags.endianSwapAll ∧ encoding ≠ .char then Transform.endianSwap start width else pure []
  return reversal ++ inversion ++ swap

end Flags

end BitTemplate
