import BitTemplate.Bits
import BitTemplate.Field.Width

/-!
Transforms of storage. A transform reverses or inverts the bits of one region; each end of the region is fixed or
measured back from the end of the data. On bits a transform is its own inverse. On positions, which are the boundaries
between bits, a reversal mirrors the inner boundaries of its region and an inversion moves nothing.
-/

namespace BitTemplate

/-! ## Regions -/

/-- The end of a region. -/
inductive Edge where
  | fixed (position : Nat)
  | fromEnd (back : Nat)
deriving DecidableEq, Repr

/-- The position of an edge in data of a given length. -/
def Edge.resolve? (length : Nat) : Edge → Option Nat
  | .fixed position => some position
  | .fromEnd back => if back ≤ length then some (length - back) else none

/-- The text of an edge. -/
def Edge.text : Edge → String
  | .fixed position => toString position
  | .fromEnd back => if back = 0 then "$" else "$-" ++ toString back

/-- What a transform does to the bits of its region. -/
inductive Change where
  | reverse
  | invert
deriving DecidableEq, Repr

/-- The changed bits. -/
def Change.act : Change → Bits → Bits
  | .reverse, bits => bits.reverse
  | .invert, bits => bits.map not

/-- The name of a change. -/
def Change.name : Change → String
  | .reverse => "reverse"
  | .invert => "invert"

/-- A change of the bits from one edge to another. -/
structure Transform where
  change : Change
  start : Edge
  stop : Edge
deriving DecidableEq, Repr

namespace Transform

/-- The change of `count` bits of the data. -/
def span (change : Change) (start count : Nat) : Transform :=
  ⟨change, .fixed start, .fixed (start + count)⟩

/-- The reversal of `count` bits. -/
def reverse (start count : Nat) : Transform :=
  span .reverse start count

/-- The inversion of `count` bits. -/
def invert (start count : Nat) : Transform :=
  span .invert start count

/-- The change of a window of the given width, which need not lie in the data: its end is a word, and lies before its
start if the sum of start and width is none. -/
def window (change : Change) (start : Nat) : Width → Transform
  | .bits count => ⟨change, .fixed start, .fixed (wordSum start count)⟩
  | .rest => ⟨change, .fixed start, .fromEnd 0⟩

theorem window_eq_span {change : Change} {start count : Nat} (small : start + count < wordSize) :
    window change start (.bits count) = span change start count := by
  rw [window, wordSum_eq small, span]

/-- The region in data of a given length, if it fits. -/
def region? (t : Transform) (length : Nat) : Option (Nat × Nat) := do
  let start ← t.start.resolve? length
  let stop ← t.stop.resolve? length
  if start ≤ stop ∧ stop ≤ length then some (start, stop) else none

theorem region?_bounds {t : Transform} {length start stop : Nat} (h : t.region? length = some (start, stop)) :
    start ≤ stop ∧ stop ≤ length := by
  simp only [region?, Option.bind_eq_bind, Option.bind_eq_some_iff, Option.ite_none_right_eq_some,
    Option.some.injEq, Prod.mk.injEq] at h
  obtain ⟨_, _, _, _, bounds, rfl, rfl⟩ := h
  exact bounds

/-! ## Bits -/

/-- The bits after the change of one region. -/
def onRegion (change : Change) (start stop : Nat) (bits : Bits) : Bits :=
  bits.take start ++ change.act ((bits.drop start).take (stop - start)) ++ bits.drop stop

theorem length_onRegion {change : Change} {start stop : Nat} {bits : Bits} (first : start ≤ stop)
    (last : stop ≤ bits.length) : (onRegion change start stop bits).length = bits.length := by
  cases change <;> simp [onRegion, Change.act] <;> omega

/-- The bits after a transform, if its region fits them. -/
def onBits? (t : Transform) (bits : Bits) : Option Bits :=
  (t.region? bits.length).map fun (start, stop) => onRegion t.change start stop bits

/-- A transform keeps the number of bits. -/
theorem length_of_onBits? {t : Transform} {bits after : Bits} (h : t.onBits? bits = some after) :
    after.length = bits.length := by
  simp only [onBits?, Option.map_eq_some_iff] at h
  obtain ⟨⟨start, stop⟩, region, rfl⟩ := h
  exact length_onRegion (region?_bounds region).1 (region?_bounds region).2

/-! ## Positions -/

/-- The boundary that a boundary becomes. -/
def mapPosition (t : Transform) (length position : Nat) : Nat :=
  match t.change, t.region? length with
  | .reverse, some (start, stop) =>
    if start < position ∧ position < stop then start + stop - position else position
  | _, _ => position

/-- The text of a transform. -/
def text (t : Transform) : String :=
  t.change.name ++ " [" ++ t.start.text ++ ", " ++ t.stop.text ++ ")"

end Transform

end BitTemplate
