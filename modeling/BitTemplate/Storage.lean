import BitTemplate.Run.Fault

/-!
Storage: the bits of a run and a cursor in them. The cursor never passes the end. Reading and seeking move the cursor,
writing overwrites from the cursor on and extends the bits where they end, and a transform changes bits in place.
-/

namespace BitTemplate

/-- Bits with a cursor. -/
structure Storage where
  bits : Bits
  /-- The number of bits before the cursor. -/
  cursor : Nat
  cursor_le : cursor ≤ bits.length

namespace Storage

/-- The bits with the cursor in front. -/
def ofBits (bits : Bits) : Storage :=
  ⟨bits, 0, Nat.zero_le _⟩

/-- The bits of a byte string with the cursor in front. -/
def ofBytes (bytes : List UInt8) : Storage :=
  ofBits (Bits.ofBytes bytes)

/-- The number of bits. -/
def length (s : Storage) : Nat :=
  s.bits.length

/-- The number of bits after the cursor. -/
def remaining (s : Storage) : Nat :=
  s.length - s.cursor

/-! ## Cursor -/

/-- Where a movement of the cursor starts to count. -/
inductive SeekOrigin where
  | start
  | current
  | stop
deriving DecidableEq

/-- The storage with its cursor moved by a distance from an origin. -/
def seek (s : Storage) (origin : SeekOrigin) (distance : Int) : Except Fault Storage :=
  let target : Int := match origin with
    | .start => distance
    | .current => s.cursor + distance
    | .stop => s.length + distance
  if h : 0 ≤ target ∧ target ≤ s.bits.length then
    .ok { s with cursor := target.toNat, cursor_le := by omega }
  else .error (.seekOutside target s.length)

/-- Fails unless `width` bits are left. -/
def require (s : Storage) (width : Nat) : Except Fault Unit :=
  if width ≤ s.remaining then .ok () else .error (.tooFewBits width s.cursor s.remaining)

/-- The next bits and the storage after them. -/
def read (s : Storage) (width : Nat) : Except Fault (Bits × Storage) :=
  if h : s.cursor + width ≤ s.bits.length then
    .ok ((s.bits.drop s.cursor).take width, { s with cursor := s.cursor + width, cursor_le := h })
  else .error (.tooFewBits width s.cursor s.remaining)

/-- The bits after the cursor and the storage at its end. -/
def readAll (s : Storage) : Bits × Storage :=
  (s.bits.drop s.cursor, { s with cursor := s.bits.length, cursor_le := Nat.le_refl _ })

/-! ## Bits -/

/-- The storage after writing over the bits at the cursor and past the end. -/
def write (s : Storage) (bits : Bits) : Storage where
  bits := s.bits.take s.cursor ++ bits ++ s.bits.drop (s.cursor + bits.length)
  cursor := s.cursor + bits.length
  cursor_le := by
    have := s.cursor_le
    simp only [List.length_append, List.length_take, List.length_drop]
    omega

/-- The storage after a transform, if its region fits. -/
def apply (s : Storage) (t : Transform) : Except Fault Storage :=
  match h : t.onBits? s.bits with
  | some bits => .ok ⟨bits, s.cursor, Transform.length_of_onBits? h ▸ s.cursor_le⟩
  | none => .error (.regionOutside t s.length)

/-- The storage after several transforms, the first one first. -/
def applyAll (s : Storage) (ts : List Transform) : Except Fault Storage :=
  ts.foldlM apply s

/-- The storage with zeros up to a byte boundary. -/
def padToByte (s : Storage) : Storage where
  bits := s.bits.padToByte
  cursor := s.cursor
  cursor_le := by
    have := s.cursor_le
    simp only [Bits.padToByte, List.length_append]
    omega

/-- The bytes of the storage, the last one filled up with zeros. -/
def toBytes (s : Storage) : List UInt8 :=
  s.bits.toBytes

/-! ## Search -/

/-- The byte boundaries from a position on at which a piece of the given length fits. -/
def places (length piece first : Nat) : List Nat :=
  let aligned := first + Bits.padding first
  if aligned + piece ≤ length then
    (List.range ((length - piece - aligned) / 8 + 1)).map fun k => aligned + 8 * k
  else []

/-- Whether a piece stands at a position. -/
def hasAt (s : Storage) (piece : Bits) (position : Nat) : Bool :=
  piece.isPrefixOf (s.bits.drop position)

/-- The first or the last byte boundary from a position on at which a piece stands. -/
def find? (s : Storage) (piece : Bits) (first : Nat) (last : Bool) : Option Nat :=
  let candidates := places s.length piece.length first
  (if last then candidates.reverse else candidates).find? (s.hasAt piece)

end Storage

end BitTemplate
