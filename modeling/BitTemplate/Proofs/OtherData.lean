import BitTemplate.Proofs.Positions
import BitTemplate.Proofs.Progress

/-!
The same run over other data. What a decoder does with its data shows only through the bits that it reads: the bits it
passes without skipping them. So a step can be taken back from other data that is the same there, and taken again from
where that leads; all of the engine but its bits is as before. A search from the front reads nothing but the bits up to
the end of what it finds; a search from the end reads everything, and is left out.
-/

namespace BitTemplate

/-- Storage of the same length with its cursor in the same place. -/
structure Storage.Like (s t : Storage) : Prop where
  cursor : s.cursor = t.cursor
  length : s.bits.length = t.bits.length

namespace Storage

variable {s t : Storage} {bits : Bits}

theorem Like.remaining (h : s.Like t) : s.remaining = t.remaining := by
  rw [Storage.remaining, Storage.remaining, Storage.length, Storage.length, h.length, h.cursor]

end Storage

/-! ## Operations on the record -/

namespace Engine

variable {e e' : Engine} {s : Storage}

end Engine

/-- Whether a directive moves over bits without reading them. -/
def Directive.skips : Directive → Bool
  | .next _ => true
  | _ => false

namespace Decoder

variable {d d' : Engine} {s' : Storage} {u : Unit}

/-! ## Building blocks -/

end Decoder

/-! ## Skipped bits -/

/-- A window of bits that a run skipped, with the log of the run at that time. -/
structure Skip where
  log : Log
  start : Nat
  stop : Nat

namespace Skip

/-- Whether a position in the view lies in the window. -/
def Has (skip : Skip) (position : Nat) : Prop :=
  skip.start ≤ position ∧ position < skip.stop

instance (skip : Skip) (position : Nat) : Decidable (skip.Has position) :=
  inferInstanceAs (Decidable (_ ∧ _))

/-- Whether a position on the wire is that of a bit in the window. -/
def Covers (skip : Skip) (length place : Nat) : Prop :=
  ∃ position, skip.Has position ∧ skip.log.bitToWire length position = place

end Skip

namespace Decoder

/-- The windows that a run skips. -/
def skipped (index : Nat) : List Instruction → Engine → List Skip
  | [], _ => []
  | instruction :: rest, e =>
    match step index instruction e with
    | .ok () e' =>
      (if instruction.directive.skips then [⟨e.log, e.cursor, e'.cursor⟩] else []) ++ skipped (index + 1) rest e'
    | .error _ _ => []

end Decoder

end BitTemplate
