import BitTemplate.Proofs.Storage

/-!
Single bits through transforms. A transform takes each bit from one position to another and may invert it, whatever the
data is. So two strings of the same length that went through the same transforms differ at a position exactly if they
differed at the position where its bit came from, and transforms within some positions stay a matter of the bits there.
-/

namespace BitTemplate

/-- Whether two bit strings are the same from one position up to another. -/
def Bits.SameOn (first last : Nat) (a b : Bits) : Prop :=
  ∀ position, first ≤ position → position < last → a[position]? = b[position]?

namespace Bits.SameOn

variable {first last : Nat} {a b : Bits}

theorem symm (h : SameOn first last a b) : SameOn first last b a :=
  fun position low high => (h position low high).symm

theorem mono (h : SameOn first last a b) {low high : Nat} (le : first ≤ low) (le' : high ≤ last) : SameOn low high a b :=
  fun position below above => h position (Nat.le_trans le below) (Nat.lt_of_lt_of_le above le')

theorem slice (h : SameOn first last a b) : (a.drop first).take (last - first) = (b.drop first).take (last - first) := by
  apply List.ext_getElem?
  intro k
  rw [List.getElem?_take, List.getElem?_take, List.getElem?_drop, List.getElem?_drop]
  split
  · exact h (first + k) (by omega) (by omega)
  · rfl

end Bits.SameOn

namespace Transform

/-! ## One transform -/

/-- The position to which a transform takes the bit at a position. -/
def mapBit (t : Transform) (length position : Nat) : Nat :=
  match t.change, t.region? length with
  | .reverse, some (start, stop) =>
    if start ≤ position ∧ position < stop then start + stop - 1 - position else position
  | _, _ => position

/-- Whether a transform inverts the bit at a position. -/
def inverts (t : Transform) (length position : Nat) : Bool :=
  match t.change, t.region? length with
  | .invert, some (start, stop) => decide (start ≤ position ∧ position < stop)
  | _, _ => false

theorem getElem?_onRegion (change : Change) {start stop : Nat} {bits : Bits} (first : start ≤ stop)
    (last : stop ≤ bits.length) (position : Nat) :
    (onRegion change start stop bits)[position]?
      = if start ≤ position ∧ position < stop then (change.act ((bits.drop start).take (stop - start)))[position - start]?
        else bits[position]? := by
  have front : (bits.take start).length = start := by rw [List.length_take]; omega
  have middle : (change.act ((bits.drop start).take (stop - start))).length = stop - start := by
    rw [length_act, List.length_take, List.length_drop]
    omega
  rw [onRegion, List.append_assoc]
  by_cases before : position < start
  · rw [List.getElem?_append_left (by omega), List.getElem?_take_of_lt before, if_neg (by omega)]
  · rw [List.getElem?_append_right (by omega), front]
    by_cases inside : position < stop
    · rw [List.getElem?_append_left (by omega), if_pos (by omega)]
    · rw [List.getElem?_append_right (by omega), middle, List.getElem?_drop, if_neg (by omega)]
      congr 1
      omega

/-- Where the bit at a position comes from, and whether it was inverted. -/
theorem getElem?_onBits {t : Transform} {bits after : Bits} (h : t.onBits? bits = some after) (position : Nat) :
    after[position]? = bits[t.mapBit bits.length position]?.map (· ^^ t.inverts bits.length position) := by
  obtain ⟨start, stop, region⟩ := exists_region? h
  have bounds := region?_bounds region
  rw [onBits?, region] at h
  cases h
  rw [getElem?_onRegion t.change bounds.1 bounds.2]
  obtain ⟨change, _, _⟩ := t
  cases change with
  | reverse =>
    simp only [mapBit, inverts, region, Bool.xor_false, Option.map_id_fun', id_eq]
    by_cases inside : start ≤ position ∧ position < stop
    · have width : ((bits.drop start).take (stop - start)).length = stop - start := by
        rw [List.length_take, List.length_drop]
        omega
      rw [if_pos inside, if_pos inside, Change.act, List.getElem?_reverse (by omega), width,
        List.getElem?_take_of_lt (by omega), List.getElem?_drop]
      congr 1
      omega
    · rw [if_neg inside, if_neg inside]
  | invert =>
    simp only [mapBit, inverts, region]
    by_cases inside : start ≤ position ∧ position < stop
    · rw [if_pos inside, Change.act, List.getElem?_map, List.getElem?_take_of_lt (by omega), List.getElem?_drop,
        show start + (position - start) = position by omega]
      simp [inside]
    · rw [if_neg inside]
      simp [inside]

/-! ## Several transforms -/

/-- A transform within some positions takes each bit there to a position there. -/
theorem Within.mapBit {first last : Nat} {t : Transform} (h : Within first last t) {low high length position : Nat}
    (le : low ≤ first) (le' : last ≤ high) (below : low ≤ position) (above : position < high) :
    low ≤ t.mapBit length position ∧ t.mapBit length position < high := by
  obtain ⟨start, stop, fixed, fixed', first_le, le_last⟩ := h
  unfold Transform.mapBit
  split
  · rename_i a b _ region
    have edges := start_of_region? region
    rw [fixed, fixed'] at edges
    cases edges.1
    cases edges.2
    split <;> omega
  · exact ⟨below, above⟩

end Transform

/-! ## Logs -/

namespace Log

/-- The position on the wire of the bit at a position in the view: the transforms newest first. -/
def bitToWire (log : Log) (length position : Nat) : Nat :=
  log.foldl (fun p entry => entry.transform.mapBit length p) position

end Log

/-! ## Search -/

namespace Storage

theorem pairwise_places (length piece first : Nat) : (places length piece first).Pairwise (· < ·) := by
  unfold places
  simp only
  split
  · rw [List.pairwise_map]
    exact List.pairwise_lt_range.imp fun less => by omega
  · exact List.Pairwise.nil

end Storage

end BitTemplate
