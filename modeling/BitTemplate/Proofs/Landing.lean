import Mathlib.Order.Bounds.Basic
import BitTemplate.Proofs.Boundaries
import BitTemplate.Proofs.Failure

/-!
Where jumps and marker scans land. Both pass the bits up to some position, which become one value as they stand. A jump is
given its position on the wire. It lands where this position has moved to, unless it lies outside the data or has moved
behind the cursor. A scan lands on the first or the last place at which the marker stands in disguise, and reads it there.
Neither fails in any other way.
-/

namespace BitTemplate

/-! ## Gaps -/

namespace Engine

variable {e : Engine} {v : Value}

/-- The bits from the cursor up to a position. -/
def gap (e : Engine) (target : Nat) : Bits :=
  (e.storage.bits.drop e.cursor).take (target - e.cursor)

theorem length_gap {target : Nat} (inside : target ≤ e.storage.bits.length) :
    (e.gap target).length = target - e.cursor := by
  rw [gap, List.length_take, List.length_drop]
  omega

/-- A later state with exactly one value more, which starts at the cursor. -/
structure AddsValue (v : Value) (e e' : Engine) : Prop where
  records : e'.records = e.records.push v
  walk : e'.walk = e.walk.scalar
  shape : e'.shape = e.shape.push '.'
  last : e'.last = some ⟨v, e.streamPosition, e.walk.path⟩
  flags : e'.flags = e.flags
  labels : e'.labels = e.labels

/-- The state in which the bits up to a position have been passed and become a value. -/
def passTo (e : Engine) (target : Nat) (inside : target ≤ e.storage.bits.length) (v : Value) : Engine :=
  { e.emit (.seek e.cursor target) with storage := ⟨e.storage.bits, target, inside⟩ }.produce v e.cursor

theorem addsValue_passTo {target : Nat} (inside : target ≤ e.storage.bits.length) :
    e.AddsValue v (e.passTo target inside v) :=
  ⟨rfl, rfl, rfl, rfl, rfl, rfl⟩

/-- Reading bits changes nothing of the record. -/
theorem AddsValue.consume {e₁ e' : Engine} (h : e.AddsValue v e₁) (consumes : Decoder.Consumes False e₁ e') :
    e.AddsValue v e' := by
  obtain ⟨ts, s, events, _, _, _⟩ := consumes
  exact ⟨h.records, h.walk, h.shape, h.last, h.flags, h.labels⟩

end Engine

namespace Decoder

variable {e : Engine} {v : Value}

/-- A gap within the data that can be read is passed. -/
theorem produceGap_inside {encoding : Encoding} {target : Nat} (ahead : e.cursor ≤ target)
    (inside : target ≤ e.storage.bits.length) (decoded : Field.decode encoding (e.gap target) = .ok v) :
    produceGap encoding target e = .ok () (e.passTo target inside v) := by
  have stop : e.cursor + (target - e.cursor) = target := by omega
  exact produceGap_ok.mpr ⟨⟨e.storage.bits, target, inside⟩, v, by rwa [stop], rfl, stop.symm, decoded, rfl⟩

end Decoder

/-! ## Jumps -/

/-- The position on the wire that a jump is to reach. -/
def Engine.aim (e : Engine) (origin : JumpOrigin) (bits : Nat) : Int :=
  match origin with
  | .start => bits
  | .stop => e.storage.length - bits
  | .forward => e.streamPosition + bits
  | .backward => e.streamPosition - bits

theorem Engine.jumpTarget_eq (e : Engine) (origin : JumpOrigin) (bits : Nat) :
    jumpTarget e.log origin bits e.cursor e.storage.length =
      if e.aim origin bits < 0 then .error (.jumpBeforeStart (e.aim origin bits).natAbs)
      else if e.storage.length < e.aim origin bits then .error (.jumpPastEnd (e.aim origin bits) e.storage.length)
      else if e.log.ofWire e.storage.length (e.aim origin bits).toNat < e.cursor then
        .error (.jumpBeforeCursor (e.log.ofWire e.storage.length (e.aim origin bits).toNat) e.cursor)
      else .ok (e.log.ofWire e.storage.length (e.aim origin bits).toNat) := by
  cases origin with
  | start =>
    have base : e.aim .start bits = 0 + (bits : Int) := (Int.zero_add _).symm
    rw [base]
    rfl
  | stop => rfl
  | forward => rfl
  | backward => rfl

namespace Decoder

/-- A jump that has no target leaves everything as it is. -/
theorem jump_error {e : Engine} {origin : JumpOrigin} {bits : Nat} {fault : Fault}
    (h : Engine.jumpTarget e.log origin bits e.cursor e.storage.length = .error fault) :
    jump origin bits e = .error fault e := by
  have here : (get : Step Engine) e = .ok e e := rfl
  rw [jump, step_bind_of_ok here]
  exact step_bind_of_error (check_error.mpr ⟨h, rfl⟩)

/-- A jump lands on its position on the wire. It fails and changes nothing if that position lies before the start or past
the end of the data, or if it has moved behind the cursor. Otherwise it succeeds: the cursor stands where the position has
moved to, the data and the log are as they were, and the bits passed are one value more. -/
theorem jump_lands (e : Engine) (origin : JumpOrigin) (bits : Nat) :
    let aim := e.aim origin bits
    let target := e.log.ofWire e.storage.length aim.toNat
    (aim < 0 → execute (.jump origin bits) e = .error (.jumpBeforeStart aim.natAbs) e
        ∧ (Fault.jumpBeforeStart aim.natAbs).family = .jumpRange)
      ∧ (e.storage.length < aim → execute (.jump origin bits) e = .error (.jumpPastEnd aim e.storage.length) e
        ∧ (Fault.jumpPastEnd aim e.storage.length).family = .incompleteData)
      ∧ (0 ≤ aim → aim ≤ e.storage.length → target < e.cursor →
        execute (.jump origin bits) e = .error (.jumpBeforeCursor target e.cursor) e
        ∧ (Fault.jumpBeforeCursor target e.cursor).family = .jumpRange)
      ∧ (0 ≤ aim → aim ≤ e.storage.length → e.cursor ≤ target →
        ∃ e' v, execute (.jump origin bits) e = .ok () e'
          ∧ e'.streamPosition = aim ∧ e'.cursor = target ∧ target ≤ e.storage.length
          ∧ e'.storage.bits = e.storage.bits ∧ e'.log = e.log
          ∧ e.AddsValue v e' ∧ v.HoldsGap e.cursor (e.gap target)) := by
  intro aim target
  have lands := e.jumpTarget_eq origin bits
  refine ⟨fun before => ⟨jump_error ?_, rfl⟩, fun past => ⟨jump_error ?_, rfl⟩,
    fun low high behind => ⟨jump_error ?_, rfl⟩, fun low high ahead => ?_⟩
  · rw [lands, if_pos before]
  · rw [lands, if_neg (by omega), if_pos past]
  · rw [lands, if_neg (by omega), if_neg (by omega), if_pos behind]
  · rw [if_neg (by omega), if_neg (by omega), if_neg (Nat.not_lt.mpr ahead)] at lands
    have inside : target ≤ e.storage.bits.length := e.log.ofWire_le (by omega)
    obtain ⟨v, holds⟩ := exists_holdsGap e.cursor (e.gap target)
    have decoded := decode_gap_ok.mpr holds
    rw [Engine.length_gap inside] at decoded
    have passed := produceGap_inside ahead inside decoded
    have back : e.log.toWire e.storage.length target = aim.toNat := e.log.toWire_ofWire _ _
    refine ⟨e.passTo target inside v, v, jump_ok.mpr ⟨target, lands, passed⟩, ?_, rfl, inside, rfl, rfl,
      Engine.addsValue_passTo inside, holds⟩
    show ((e.log.toWire e.storage.length target : Nat) : Int) = aim
    rw [back, Int.toNat_of_nonneg low]

/-- A decoder of three bytes that has reversed the first two and jumped to the bit that lies four bits from the start on the
wire: it stands at the twelfth bit. -/
def landed : Engine :=
  (runFrom 0 [⟨"r16", ⟨0, 3⟩, .mod .reverse (.bits 16)⟩, ⟨"jf4", ⟨4, 7⟩, .jump .forward 4⟩]
    (ofBytes [0x12, 0x34, 0x56] ⟨20, 0⟩ true []).engine).2

theorem jump_lands_landed :
    landed.cursor = 12 ∧ landed.streamPosition = 4
      ∧ execute (.jump .backward 5) landed = .error (.jumpBeforeStart 1) landed
      ∧ execute (.jump .forward 21) landed = .error (.jumpPastEnd 25 24) landed
      ∧ execute (.jump .stop 10) landed = .error (.jumpBeforeCursor 2 12) landed
      ∧ ∃ e' v, execute (.jump .start 2) landed = .ok () e' ∧ e'.streamPosition = 2 ∧ e'.cursor = 14
        ∧ e'.storage.bits = landed.storage.bits ∧ landed.AddsValue v e' ∧ v.HoldsGap 12 [true, false] := by
  obtain ⟨before, _, _, _⟩ := jump_lands landed .backward 5
  obtain ⟨_, past, _, _⟩ := jump_lands landed .forward 21
  obtain ⟨_, _, behind, _⟩ := jump_lands landed .stop 10
  obtain ⟨_, _, _, lands⟩ := jump_lands landed .start 2
  obtain ⟨e', v, done, stream, cursor, _, bits, _, adds, holds⟩ :=
    lands (by decide +kernel) (by decide +kernel) (by decide +kernel)
  exact ⟨by decide +kernel, by decide +kernel, (before (by decide +kernel)).1, (past (by decide +kernel)).1,
    (behind (by decide +kernel) (by decide +kernel) (by decide +kernel)).1, e', v, done, Int.ofNat.inj stream, cursor, bits,
    adds, holds⟩

end Decoder

/-! ## Search -/

/-- The first element of an ordered list that has a property comes before all others that have it. -/
theorem first_of_find? {related : Nat → Nat → Prop} {places : List Nat} {found : Nat} {property : Nat → Bool}
    (ordered : places.Pairwise related) (h : places.find? property = some found) :
    ∀ place ∈ places, property place = true → place = found ∨ related found place := by
  obtain ⟨_, before, behind, rfl, none_before⟩ := List.find?_eq_some_iff_append.mp h
  intro place member has
  rw [List.pairwise_append, List.pairwise_cons] at ordered
  rcases List.mem_append.mp member with earlier | here
  · have lacks := none_before place earlier
    rw [has] at lacks
    cases lacks
  · rcases List.mem_cons.mp here with same | later
    · exact .inl same
    · exact .inr (ordered.2.1.1 place later)

namespace Storage

variable {s : Storage} {piece : Bits} {first found : Nat} {last : Bool}

/-- The byte boundaries from a position on at which a piece stands. -/
def occurrences (s : Storage) (piece : Bits) (first : Nat) : Set Nat :=
  {position | first ≤ position ∧ position % 8 = 0 ∧ position + piece.length ≤ s.length
    ∧ (s.bits.drop position).take piece.length = piece}

theorem hasAt_iff {position : Nat} : s.hasAt piece position = true ↔ (s.bits.drop position).take piece.length = piece := by
  rw [hasAt, List.isPrefixOf_iff_prefix, List.prefix_iff_eq_take, eq_comm]

theorem mem_occurrences {position : Nat} :
    position ∈ s.occurrences piece first
      ↔ position ∈ places s.length piece.length first ∧ s.hasAt piece position = true := by
  rw [mem_places, hasAt_iff]
  show first ≤ position ∧ _ ↔ _
  simp only [and_assoc]

/-- A search fails exactly if the piece stands nowhere. -/
theorem find?_eq_none_iff : s.find? piece first last = none ↔ s.occurrences piece first = ∅ := by
  have nowhere : s.find? piece first last = none
      ↔ ∀ position ∈ places s.length piece.length first, ¬ s.hasAt piece position = true := by
    cases last with
    | true => simp [find?]
    | false => simp [find?]
  rw [nowhere, Set.eq_empty_iff_forall_notMem]
  constructor
  · intro none position member
    obtain ⟨place, here⟩ := mem_occurrences.mp member
    exact none position place here
  · intro none position place here
    exact none position (mem_occurrences.mpr ⟨place, here⟩)

theorem mem_occurrences_of_find? (h : s.find? piece first last = some found) : found ∈ s.occurrences piece first :=
  mem_occurrences.mpr ⟨mem_places_of_find? h, List.find?_some h⟩

/-- A search from the start finds the least occurrence. -/
theorem isLeast_of_find? (h : s.find? piece first false = some found) : IsLeast (s.occurrences piece first) found := by
  refine ⟨mem_occurrences_of_find? h, fun position member => ?_⟩
  obtain ⟨place, here⟩ := mem_occurrences.mp member
  rcases first_of_find? (pairwise_places _ _ _) h position place here with same | later
  · exact Nat.le_of_eq same.symm
  · exact Nat.le_of_lt later

/-- A search from the end finds the greatest occurrence. -/
theorem isGreatest_of_find? (h : s.find? piece first true = some found) :
    IsGreatest (s.occurrences piece first) found := by
  refine ⟨mem_occurrences_of_find? h, fun position member => ?_⟩
  obtain ⟨place, here⟩ := mem_occurrences.mp member
  have backwards := List.pairwise_reverse.mpr (pairwise_places s.length piece.length first)
  rcases first_of_find? backwards h position (List.mem_reverse.mpr place) here with same | earlier
  · exact Nat.le_of_eq same
  · exact Nat.le_of_lt earlier

end Storage

/-! ## Markers -/

namespace Decoder

variable {e : Engine} {last : Bool} {bytes : List UInt8} {needle : Bits}

/-- A scan that finds nothing leaves everything as it is. -/
theorem marker_none (aligned : e.cursor % 8 = 0) (disguised : Engine.disguise e.flags bytes = .ok needle)
    (nowhere : e.storage.find? needle e.cursor last = none) :
    marker last bytes e = .error (.markerNotFound bytes) e := by
  have standing : check (·.requireAligned .markerScan) e = .ok () e :=
    check_ok.mpr ⟨Engine.requireAligned_ok.mpr aligned, rfl⟩
  rw [marker, step_bind_of_ok standing, step_bind_of_ok (check_ok.mpr ⟨disguised, rfl⟩)]
  refine step_bind_of_error (check_error.mpr ⟨?_, rfl⟩)
  rw [nowhere]

/-- A scan that finds the marker passes the bits before it and reads it. -/
theorem marker_some {place : Nat} (aligned : e.cursor % 8 = 0) (disguised : Engine.disguise e.flags bytes = .ok needle)
    (here : e.storage.find? needle e.cursor last = some place) :
    ∃ e' content, marker last bytes e = .ok () e'
      ∧ e'.cursor = place + 8 * bytes.length
      ∧ e'.storage.bits
        = e.storage.bits.take place ++ Bits.ofBytes bytes ++ e.storage.bits.drop (place + 8 * bytes.length)
      ∧ e.AddsValue (.bytes content) e' ∧ Bits.ofBytes content = e.gap place := by
  have ahead := Storage.le_of_find? here
  have stands := Storage.aligned_of_find? here
  have fits := (Storage.mem_places.mp (Storage.mem_places_of_find? here)).2.2
  have inside : place ≤ e.storage.bits.length := Nat.le_trans (Nat.le_add_right ..) fits
  have whole : (e.gap place).length % 8 = 0 := by
    rw [Engine.length_gap inside]
    omega
  let content := (e.gap place).toBytes
  have bits : Bits.ofBytes content = e.gap place := Bits.ofBytes_toBytes whole
  have gap := produceGap_inside ahead inside (Field.decode_eq_bytes.mpr bits.symm)
  obtain ⟨e', read, after, cursor⟩ := readField_after_gap disguised here gap
  obtain ⟨_, taken, _⟩ := readField_ok.mp read
  exact ⟨e', content, marker_ok.mpr ⟨needle, place, _, aligned, disguised, here, gap, read⟩, cursor, after,
    (Engine.addsValue_passTo inside).consume (.readBits taken), bits⟩

/-- A marker scan lands on the first or the last byte boundary from the cursor on at which the marker stands in disguise,
and fails exactly if there is none. The bits passed are one value more, and the marker's bytes stand where it was found;
the rest of the data is as it was. Nothing else can go wrong, so the marker is always read back. -/
theorem marker_lands (e : Engine) (last : Bool) (bytes : List UInt8) (aligned : e.cursor % 8 = 0) :
    ∃ needle, Engine.disguise e.flags bytes = .ok needle
      ∧ (execute (.marker last bytes) e = .error (.markerNotFound bytes) e
        ↔ e.storage.occurrences needle e.cursor = ∅)
      ∧ (∀ fault e', execute (.marker last bytes) e = .error fault e' → fault = .markerNotFound bytes)
      ∧ ((e.storage.occurrences needle e.cursor).Nonempty → ∃ place e' content,
        (if last then IsGreatest (e.storage.occurrences needle e.cursor) place
          else IsLeast (e.storage.occurrences needle e.cursor) place)
        ∧ execute (.marker last bytes) e = .ok () e'
        ∧ e'.cursor = place + 8 * bytes.length
        ∧ e'.storage.bits
          = e.storage.bits.take place ++ Bits.ofBytes bytes ++ e.storage.bits.drop (place + 8 * bytes.length)
        ∧ e.AddsValue (.bytes content) e' ∧ Bits.ofBytes content = e.gap place) := by
  obtain ⟨needle, disguised⟩ := Engine.exists_disguise e.flags bytes
  refine ⟨needle, disguised, ?_⟩
  cases here : e.storage.find? needle e.cursor last with
  | none =>
    have failed := marker_none aligned disguised here
    have nowhere := Storage.find?_eq_none_iff.mp here
    refine ⟨⟨fun _ => nowhere, fun _ => failed⟩, fun fault e' again => ?_, fun somewhere => ?_⟩
    · cases failed.symm.trans again
      rfl
    · exact absurd nowhere somewhere.ne_empty
  | some place =>
    obtain ⟨e', content, found, after⟩ := marker_some aligned disguised here
    have occurs := Storage.mem_occurrences_of_find? here
    refine ⟨⟨fun failed => ?_, fun nowhere => ?_⟩, fun fault e'' failed => ?_, fun _ => ?_⟩
    · cases found.symm.trans failed
    · rw [nowhere] at occurs
      cases occurs
    · cases found.symm.trans failed
    · refine ⟨place, e', content, ?_, found, after⟩
      cases last with
      | true => exact Storage.isGreatest_of_find? here
      | false => exact Storage.isLeast_of_find? here

/-- A decoder of six bytes that reverses and inverts every field and swaps its bytes. -/
def disguising : Engine :=
  (runFrom 0
    [⟨"Ry", ⟨0, 2⟩, .control (.setFlag .reverseAll .set)⟩, ⟨"Iy", ⟨3, 5⟩, .control (.setFlag .invertAll .set)⟩,
      ⟨"Ey", ⟨6, 8⟩, .control (.setFlag .endianSwapAll .set)⟩]
    (ofBytes [0x2a, 0x4c, 0x00, 0x2a, 0x4c, 0x07] ⟨20, 0⟩ true []).engine).2

theorem marker_lands_disguising :
    disguising.cursor % 8 = 0
      ∧ Engine.disguise disguising.flags [0xab, 0xcd] = .ok (Bits.ofBytes [0x2a, 0x4c])
      ∧ ∃ e' content, execute (.marker true [0xab, 0xcd]) disguising = .ok () e' ∧ e'.cursor = 40
        ∧ e'.storage.bits = Bits.ofBytes [0x2a, 0x4c, 0x00, 0xab, 0xcd, 0x07]
        ∧ disguising.AddsValue (.bytes content) e' ∧ Bits.ofBytes content = Bits.ofBytes [0x2a, 0x4c, 0x00] := by
  have aligned : disguising.cursor % 8 = 0 := by decide +kernel
  have disguised : Engine.disguise disguising.flags [0xab, 0xcd] = .ok (Bits.ofBytes [0x2a, 0x4c]) := rfl
  have greatest : IsGreatest (disguising.storage.occurrences (Bits.ofBytes [0x2a, 0x4c]) disguising.cursor) 24 :=
    Storage.isGreatest_of_find? (by decide +kernel)
  obtain ⟨needle, same, _, _, lands⟩ := marker_lands disguising true [0xab, 0xcd] aligned
  cases disguised.symm.trans same
  obtain ⟨place, e', content, last, done, cursor, bits, adds, gap⟩ := lands ⟨24, greatest.1⟩
  obtain rfl : place = 24 := IsGreatest.unique last greatest
  exact ⟨aligned, disguised, e', content, done, cursor, bits, adds, gap⟩

end Decoder

end BitTemplate
