import BitTemplate.Transform

/-!
The log of the transforms of a run, newest first. Replaying it takes boundaries from the view, which is the data after
every transform so far, to the wire, which is the data as it lies there before any of them, and back.
-/

namespace BitTemplate

/-- A transform and the flat index of the next value when it was applied. -/
structure LogEntry where
  flatIndex : Nat
  transform : Transform
deriving DecidableEq, Repr

/-- The transforms of a run, newest first. -/
abbrev Log := List LogEntry

namespace Log

/-- The boundary on the wire of a boundary in the view: the transforms newest first. -/
def toWire (log : Log) (length position : Nat) : Nat :=
  log.foldl (fun p entry => entry.transform.mapPosition length p) position

/-- The boundary in the view of a boundary on the wire: the transforms oldest first. -/
def ofWire (log : Log) (length position : Nat) : Nat :=
  log.foldr (fun entry p => entry.transform.mapPosition length p) position

end Log

end BitTemplate
