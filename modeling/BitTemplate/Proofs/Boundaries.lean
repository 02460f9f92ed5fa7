import Mathlib.Data.Set.Function
import Mathlib.Order.Interval.Set.Basic
import BitTemplate.Proofs.Positions

/-!
Boundaries between bits through logs. A reversal mirrors the boundaries inside its region and leaves all others, so both
directions of a log undo each other and keep to the data. Bits and boundaries move by different rules, but go together: as
long as a boundary meets no end of a reversed region on its way to the wire, the boundary that it becomes there lies
between the two bits that the bits on its sides come from.
-/

namespace BitTemplate

namespace Transform

/-! ## One transform -/

/-- The ends of the region that a transform reverses. -/
def ends (t : Transform) (length : Nat) : List Nat :=
  match t.change, t.region? length with
  | .reverse, some (start, stop) => [start, stop]
  | _, _ => []

/-- A transform moves nothing, or it mirrors the bits of a region and the boundaries inside it. -/
theorem moves_cases (t : Transform) (length : Nat) :
    (∀ position, t.mapPosition length position = position ∧ t.mapBit length position = position)
      ∨ ∃ start stop, start ≤ stop ∧ stop ≤ length ∧ t.ends length = [start, stop] ∧ ∀ position,
        t.mapPosition length position = (if start < position ∧ position < stop then start + stop - position else position)
        ∧ t.mapBit length position
          = if start ≤ position ∧ position < stop then start + stop - 1 - position else position := by
  cases change : t.change with
  | invert => exact .inl fun position => by simp only [mapPosition, mapBit, change, and_self]
  | reverse =>
    cases region : t.region? length with
    | none => exact .inl fun position => by simp only [mapPosition, mapBit, change, region, and_self]
    | some edges =>
      obtain ⟨start, stop⟩ := edges
      obtain ⟨first, last⟩ := region?_bounds region
      refine .inr ⟨start, stop, first, last, ?_, fun position => ?_⟩
      · simp only [ends, change, region]
      · simp only [mapPosition, mapBit, change, region, and_self]

/-- On boundaries, too, a transform is its own inverse. -/
theorem mapPosition_mapPosition (t : Transform) (length position : Nat) :
    t.mapPosition length (t.mapPosition length position) = position := by
  rcases moves_cases t length with still | ⟨start, stop, first, last, _, moved⟩
  · rw [(still _).1, (still position).1]
  · rw [(moved _).1, (moved position).1]
    by_cases inside : start < position ∧ position < stop
    · rw [if_pos inside, if_pos (by omega)]
      omega
    · rw [if_neg inside, if_neg inside]

theorem mapPosition_pos (t : Transform) {length position : Nat} (some_bit : 0 < position) :
    0 < t.mapPosition length position := by
  rcases moves_cases t length with still | ⟨start, stop, first, last, _, moved⟩
  · rwa [(still position).1]
  · rw [(moved position).1]
    split <;> omega

theorem mapPosition_le (t : Transform) {length position : Nat} (inside : position ≤ length) :
    t.mapPosition length position ≤ length := by
  rcases moves_cases t length with still | ⟨start, stop, first, last, _, moved⟩
  · rwa [(still position).1]
  · rw [(moved position).1]
    split <;> omega

/-- The boundaries at the two ends of the data stay. -/
theorem mapPosition_end (t : Transform) {length position : Nat} (outside : position = 0 ∨ position = length) :
    t.mapPosition length position = position := by
  rcases moves_cases t length with still | ⟨start, stop, first, last, _, moved⟩
  · exact (still position).1
  · rw [(moved position).1, if_neg (by omega)]

/-- The bits around a boundary come from around the boundary that it becomes, unless it is an end of the region. -/
theorem mapBit_around {t : Transform} {length position : Nat} (some_bit : 0 < position)
    (clear : position ∉ t.ends length) :
    ({t.mapBit length (position - 1), t.mapBit length position} : Set Nat)
      = {t.mapPosition length position - 1, t.mapPosition length position} := by
  rcases moves_cases t length with still | ⟨start, stop, first, last, ends, moved⟩
  · rw [(still (position - 1)).2, (still position).2, (still position).1]
  · have away : position ≠ start ∧ position ≠ stop := by simpa [ends] using clear
    rw [(moved (position - 1)).2, (moved position).2, (moved position).1]
    by_cases inside : start < position ∧ position < stop
    · -- the two bits change places: the one before the boundary comes from behind it
      have before : start + stop - 1 - (position - 1) = start + stop - position := by omega
      have behind : start + stop - 1 - position = start + stop - position - 1 := by omega
      rw [if_pos inside, if_pos (by omega), if_pos (by omega), before, behind, Set.pair_comm]
    · rw [if_neg inside, if_neg (by omega), if_neg (by omega)]

/-! ## Several transforms -/

/-- The boundary that a boundary becomes by several transforms, the first one first. -/
def mapPositions (ts : List Transform) (length position : Nat) : Nat :=
  ts.foldl (fun p t => t.mapPosition length p) position

theorem mapPositions_cons (t : Transform) (ts : List Transform) (length position : Nat) :
    mapPositions (t :: ts) length position = mapPositions ts length (t.mapPosition length position) := rfl

theorem mapPositions_concat (ts : List Transform) (t : Transform) (length position : Nat) :
    mapPositions (ts ++ [t]) length position = t.mapPosition length (mapPositions ts length position) := by
  rw [mapPositions, List.foldl_append]
  rfl

/-- Several transforms are undone from the last one on. -/
theorem mapPositions_reverse (ts : List Transform) (length position : Nat) :
    mapPositions ts.reverse length (mapPositions ts length position) = position := by
  induction ts generalizing position with
  | nil => rfl
  | cons t ts ih => rw [List.reverse_cons, mapPositions_concat, mapPositions_cons, ih, mapPosition_mapPosition]

theorem mapPositions_le (ts : List Transform) {length position : Nat} (inside : position ≤ length) :
    mapPositions ts length position ≤ length := by
  induction ts generalizing position with
  | nil => exact inside
  | cons t ts ih => exact ih (mapPosition_le t inside)

theorem mapPositions_end (ts : List Transform) {length position : Nat} (outside : position = 0 ∨ position = length) :
    mapPositions ts length position = position := by
  induction ts with
  | nil => rfl
  | cons t ts ih => rw [mapPositions_cons, mapPosition_end t outside, ih]

/-- Transforms permute the boundaries of the data. -/
theorem bijOn_mapPositions (ts : List Transform) (length : Nat) :
    Set.BijOn (mapPositions ts length) (Set.Icc 0 length) (Set.Icc 0 length) := by
  have stays (ts : List Transform) : Set.MapsTo (mapPositions ts length) (Set.Icc 0 length) (Set.Icc 0 length) :=
    fun _ inside => ⟨Nat.zero_le _, mapPositions_le ts inside.2⟩
  have undone : Set.InvOn (mapPositions ts.reverse length) (mapPositions ts length) (Set.Icc 0 length)
      (Set.Icc 0 length) := by
    refine ⟨fun position _ => mapPositions_reverse ts length position, fun position _ => ?_⟩
    simpa only [List.reverse_reverse] using mapPositions_reverse ts.reverse length position
  exact undone.bijOn (stays ts) (stays ts.reverse)

end Transform

namespace Log

/-! ## Positions on the wire -/

theorem toWire_eq (log : Log) (length position : Nat) :
    log.toWire length position = Transform.mapPositions (log.map (·.transform)) length position := by
  rw [toWire, Transform.mapPositions, List.foldl_map]

theorem ofWire_eq (log : Log) (length position : Nat) :
    log.ofWire length position = Transform.mapPositions log.transforms length position := by
  rw [ofWire, Transform.mapPositions, transforms, List.foldl_reverse, List.foldr_map]

theorem ofWire_toWire (log : Log) (length position : Nat) : log.ofWire length (log.toWire length position) = position := by
  rw [ofWire_eq, toWire_eq, transforms, Transform.mapPositions_reverse]

theorem toWire_ofWire (log : Log) (length position : Nat) : log.toWire length (log.ofWire length position) = position := by
  have undone := Transform.mapPositions_reverse log.transforms length position
  rwa [transforms, List.reverse_reverse, ← transforms, ← ofWire_eq, ← toWire_eq] at undone

theorem ofWire_le (log : Log) {length position : Nat} (inside : position ≤ length) :
    log.ofWire length position ≤ length := by
  rw [ofWire_eq]
  exact Transform.mapPositions_le _ inside

/-- Positions translate one to one. Whatever transforms a log has, and whether or not their regions fit the data, each of
its directions undoes the other, takes the positions of the data to the positions of the data, and fixes both ends. -/
theorem positions_bijective (log : Log) (length : Nat) :
    (∀ position, log.ofWire length (log.toWire length position) = position)
      ∧ (∀ position, log.toWire length (log.ofWire length position) = position)
      ∧ Set.BijOn (log.toWire length) (Set.Icc 0 length) (Set.Icc 0 length)
      ∧ Set.BijOn (log.ofWire length) (Set.Icc 0 length) (Set.Icc 0 length)
      ∧ (log.toWire length 0 = 0 ∧ log.toWire length length = length)
      ∧ log.ofWire length 0 = 0 ∧ log.ofWire length length = length := by
  have there : log.toWire length = Transform.mapPositions (log.map (·.transform)) length := funext (toWire_eq log length)
  have back : log.ofWire length = Transform.mapPositions log.transforms length := funext (ofWire_eq log length)
  refine ⟨ofWire_toWire log length, toWire_ofWire log length, ?_, ?_, ?_, ?_⟩
  · rw [there]
    exact Transform.bijOn_mapPositions _ length
  · rw [back]
    exact Transform.bijOn_mapPositions _ length
  · rw [there]
    exact ⟨Transform.mapPositions_end _ (.inl rfl), Transform.mapPositions_end _ (.inr rfl)⟩
  · rw [back]
    exact ⟨Transform.mapPositions_end _ (.inl rfl), Transform.mapPositions_end _ (.inr rfl)⟩

/-! ## Bits on the wire -/

/-- Whether a boundary is at no end of a reversed region at any time on its way to the wire. -/
def Clear : Log → Nat → Nat → Prop
  | [], _, _ => True
  | entry :: older, length, position =>
    position ∉ entry.transform.ends length ∧ Clear older length (entry.transform.mapPosition length position)

/-- The number of inversions that covered the bit at a position in the view. -/
def inversions : Log → Nat → Nat → Nat
  | [], _, _ => 0
  | entry :: older, length, position =>
    inversions older length (entry.transform.mapBit length position) + (entry.transform.inverts length position).toNat

variable {log : Log}

/-- A bit of the view is the bit of the wire that it comes from, inverted once for each inversion that covered it. -/
theorem getElem?_replay {wire view : Bits} (h : log.replay? wire = some view) (position : Nat) :
    view[position]?
      = wire[log.bitToWire wire.length position]?.map (not^[log.inversions wire.length position]) := by
  induction log generalizing view position with
  | nil =>
    cases h
    simp [bitToWire, inversions]
  | cons entry older ih =>
    have split : replay? (entry :: older) wire = (replay? older wire).bind (Transform.onAll? [entry.transform]) :=
      replay?_append [entry] older wire
    rw [split, Option.bind_eq_some_iff] at h
    obtain ⟨between, replayed, last⟩ := h
    rw [Transform.onAll?_cons, Option.bind_eq_some_iff] at last
    obtain ⟨_, applied, ⟨⟩⟩ := last
    have once (bit : Bool) : not^[(entry.transform.inverts wire.length position).toNat] bit
        = (bit ^^ entry.transform.inverts wire.length position) := by
      cases entry.transform.inverts wire.length position <;> simp
    rw [Transform.getElem?_onBits applied, length_of_replay? replayed, ih replayed, Option.map_map]
    simp only [bitToWire, List.foldl_cons, inversions]
    congr 1
    funext bit
    rw [Nat.add_comm, Function.iterate_add_apply, once]
    rfl

/-- The bits around a boundary come from around the boundary on the wire. -/
theorem bitToWire_around {length position : Nat} (some_bit : 0 < position) (clear : log.Clear length position) :
    ({log.bitToWire length (position - 1), log.bitToWire length position} : Set Nat)
      = {log.toWire length position - 1, log.toWire length position} := by
  induction log generalizing position with
  | nil => rfl
  | cons entry older ih =>
    obtain ⟨here, later⟩ := clear
    let next := entry.transform.mapPosition length position
    calc ({bitToWire (entry :: older) length (position - 1), bitToWire (entry :: older) length position} : Set Nat)
      _ = bitToWire older length ''
            {entry.transform.mapBit length (position - 1), entry.transform.mapBit length position} :=
          (Set.image_pair (bitToWire older length) _ _).symm
      _ = bitToWire older length '' {next - 1, next} := by rw [Transform.mapBit_around some_bit here]
      _ = {bitToWire older length (next - 1), bitToWire older length next} := Set.image_pair ..
      _ = {toWire older length next - 1, toWire older length next} :=
          ih (Transform.mapPosition_pos _ some_bit) later

theorem toWire_pos {length position : Nat} (some_bit : 0 < position) : 0 < log.toWire length position := by
  induction log generalizing position with
  | nil => exact some_bit
  | cons entry older ih => exact ih (Transform.mapPosition_pos _ some_bit)

/-- Positions translate as the bits move. The transforms of a log that fit the data can be applied, and each bit of the
view is then a bit of the wire, inverted once for each inversion that covered it. The bits on both sides of a boundary that
meets no end of a reversed region come from both sides of the boundary on the wire. -/
theorem boundaries_follow_bits (log : Log) (s : Storage)
    (fits : ∀ entry ∈ log, (entry.transform.region? s.length).isSome) :
    ∃ view, s.applyAll log.transforms = .ok view ∧ view.length = s.length
      ∧ (∀ position, view.bits[position]?
          = s.bits[log.bitToWire s.length position]?.map (not^[log.inversions s.length position]))
      ∧ ∀ boundary, 0 < boundary → boundary < s.length → log.Clear s.length boundary →
          0 < log.toWire s.length boundary
          ∧ ({log.bitToWire s.length (boundary - 1), log.bitToWire s.length boundary} : Set Nat)
            = {log.toWire s.length boundary - 1, log.toWire s.length boundary} := by
  have all_fit : ∀ t ∈ log.transforms, (t.region? s.bits.length).isSome := by
    intro t ht
    obtain ⟨entry, member, rfl⟩ := List.mem_map.mp (List.mem_reverse.mp ht)
    exact fits entry member
  obtain ⟨bits, applied⟩ := Transform.exists_onAll? all_fit
  have length : bits.length = s.bits.length := Transform.length_of_onAll? applied
  have bound : s.cursor ≤ bits.length := length ▸ s.cursor_le
  refine ⟨⟨bits, s.cursor, bound⟩, Storage.applyAll_ok.mpr ⟨applied, rfl⟩, length, getElem?_replay applied, ?_⟩
  intro boundary some_bit _ clear
  exact ⟨toWire_pos some_bit, bitToWire_around some_bit clear⟩

/-- Two bytes reversed as a whole, then eight bits of them, then all but four inverted. -/
def turnedTwice : Log :=
  [⟨0, ⟨.invert, .fixed 4, .fromEnd 0⟩⟩, ⟨0, .reverse 3 8⟩, ⟨0, .reverse 0 16⟩]

theorem boundaries_follow_bits_turnedTwice :
    (∀ entry ∈ turnedTwice, (entry.transform.region? (Storage.ofBytes [0x12, 0x34]).length).isSome)
      ∧ turnedTwice.Clear 16 5 ∧ turnedTwice.toWire 16 5 = 7 ∧ turnedTwice.inversions 16 5 = 1
      ∧ ({turnedTwice.bitToWire 16 4, turnedTwice.bitToWire 16 5} : Set Nat) = {6, 7}
      ∧ ∃ view, (Storage.ofBytes [0x12, 0x34]).applyAll turnedTwice.transforms = .ok view
        ∧ view.bits[5]? = (Storage.ofBytes [0x12, 0x34]).bits[7]?.map not := by
  have fits : ∀ entry ∈ turnedTwice, (entry.transform.region? (Storage.ofBytes [0x12, 0x34]).length).isSome := by decide
  have clear : turnedTwice.Clear 16 5 := ⟨by decide, by decide, by decide, trivial⟩
  obtain ⟨view, applied, _, bits, around⟩ := boundaries_follow_bits turnedTwice (.ofBytes [0x12, 0x34]) fits
  exact ⟨fits, clear, rfl, rfl, (around 5 (by decide) (by decide) clear).2, view, applied, bits 5⟩

end Log

end BitTemplate
