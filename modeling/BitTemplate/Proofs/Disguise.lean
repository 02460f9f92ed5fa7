import BitTemplate.Proofs.Field
import BitTemplate.Proofs.Steps

/-!
Markers read back. The transforms of a field do the same wherever the field stands in the data, and a marker is searched
for as those bits that the transforms of a byte field make into its bytes. So a marker that was found reads as itself:
whatever the flags are, a decoder does not fail on it.
-/

namespace BitTemplate

/-- An edge some positions further on; one that is measured from the end stays where it is. -/
def Edge.shift (count : Nat) : Edge → Edge
  | .fixed position => .fixed (position + count)
  | .fromEnd back => .fromEnd back

namespace Transform

variable {front bits back : Bits}

/-! ## Fields at other places -/

/-- A transform some positions further on. -/
def shift (count : Nat) (t : Transform) : Transform :=
  ⟨t.change, t.start.shift count, t.stop.shift count⟩

theorem shift_span (change : Change) (start count width : Nat) :
    (span change start width).shift count = span change (start + count) width := by
  simp only [span, shift, Edge.shift, Nat.add_right_comm]

/-- A field's transforms are those of the same field elsewhere, shifted. -/
theorem endianSwap_shift (start count width : Nat) :
    endianSwap (start + count) width = (endianSwap start width).map (List.map (shift count)) := by
  by_cases partial_byte : width % 8 ≠ 0
  · simp only [endianSwap, if_pos partial_byte]
    rfl
  · simp only [endianSwap, if_neg partial_byte]
    have each (k : Nat) : reverse (start + count + 8 * k) 8 = (reverse (start + 8 * k) 8).shift count := by
      rw [reverse, reverse, shift_span, Nat.add_right_comm]
    show Except.ok _ = Except.ok _
    rw [List.map_cons, List.map_map, reverse, reverse, shift_span]
    congr 2
    exact List.map_congr_left fun k _ => each k

theorem onRegion_append {change : Change} {start stop : Nat} (first : start ≤ stop) (last : stop ≤ bits.length) :
    onRegion change (start + front.length) (stop + front.length) (front ++ bits ++ back)
      = front ++ onRegion change start stop bits ++ back := by
  have before : (front ++ bits ++ back).take (start + front.length) = front ++ bits.take start := by
    rw [List.append_assoc, Nat.add_comm, List.take_length_add_append, List.take_append_of_le_length (by omega)]
  have from_position {position : Nat} (le : position ≤ bits.length) :
      (front ++ bits ++ back).drop (position + front.length) = bits.drop position ++ back := by
    rw [List.append_assoc, Nat.add_comm, List.drop_length_add_append, List.drop_append_of_le_length le]
  have inside : ((front ++ bits ++ back).drop (start + front.length)).take (stop + front.length - (start + front.length))
      = (bits.drop start).take (stop - start) := by
    rw [from_position (by omega), Nat.add_sub_add_right,
      List.take_append_of_le_length (by rw [List.length_drop]; omega)]
  rw [onRegion, onRegion, before, inside, from_position last]
  simp only [List.append_assoc]

/-- A transform of a field does not see what stands around the field. -/
theorem onBits?_shift {t : Transform} (h : Within 0 bits.length t) :
    (t.shift front.length).onBits? (front ++ bits ++ back) = (t.onBits? bits).map (front ++ · ++ back) := by
  obtain ⟨start, stop, fixed, fixed', _, last⟩ := h
  have region : t.region? bits.length = if start ≤ stop then some (start, stop) else none := by
    simp [region?, fixed, fixed', Edge.resolve?, last]
  have region' : (t.shift front.length).region? (front ++ bits ++ back).length
      = if start ≤ stop then some (start + front.length, stop + front.length) else none := by
    have fits : stop + front.length ≤ (front ++ bits ++ back).length := by
      simp only [List.length_append]
      omega
    simp only [region?, shift, fixed, fixed', Edge.shift, Edge.resolve?, Option.bind_eq_bind, Option.bind_some, fits,
      and_true, Nat.add_le_add_iff_right]
  rw [onBits?, onBits?, region, region']
  by_cases first : start ≤ stop
  · simp only [if_pos first, Option.map_some]
    exact congrArg some (onRegion_append first last)
  · simp only [if_neg first, Option.map_none]

theorem onAll?_shift {ts : List Transform} (h : ∀ t ∈ ts, Within 0 bits.length t) :
    onAll? (ts.map (shift front.length)) (front ++ bits ++ back) = (onAll? ts bits).map (front ++ · ++ back) := by
  induction ts generalizing bits with
  | nil => rfl
  | cons t ts ih =>
    rw [List.map_cons, onAll?_cons, onAll?_cons, onBits?_shift (h t (by simp))]
    cases first : t.onBits? bits with
    | none => rfl
    | some after =>
      have length := length_of_onBits? first
      exact ih fun u hu => length.symm ▸ h u (by simp [hu])

end Transform

/-- The lasting changes of a field are those of the same field elsewhere, shifted. -/
theorem Flags.transforms_shift (flags : Flags) (start count width : Nat) (encoding : Encoding) :
    flags.transforms (start + count) width encoding
      = (flags.transforms start width encoding).map (List.map (Transform.shift count)) := by
  have one (flag : Bool) (change : Change) :
      (if flag then [Transform.span change (start + count) width] else [])
        = (if flag then [Transform.span change start width] else []).map (Transform.shift count) := by
    cases flag with
    | false => rfl
    | true => exact congrArg (· :: []) (Transform.shift_span change start count width).symm
  simp only [transforms, Transform.reverse, Transform.invert, one flags.reverseAll, one flags.invertAll,
    Transform.endianSwap_shift]
  by_cases swaps : flags.endianSwapAll = true ∧ encoding ≠ .char
  · simp only [if_pos swaps]
    cases Transform.endianSwap start width with
    | error fault => rfl
    | ok swap => exact congrArg Except.ok (by simp only [List.map_append])
  · simp only [if_neg swaps]
    exact congrArg Except.ok (by simp only [List.map_append, List.map_nil])

/-- The lasting changes of whole bytes can always be made. -/
theorem Flags.exists_transforms (flags : Flags) (start : Nat) {width : Nat} (encoding : Encoding) (whole : width % 8 = 0) :
    ∃ ts, flags.transforms start width encoding = .ok ts := by
  have swap : ∃ ts, Transform.endianSwap start width = .ok ts := by
    simp [Transform.endianSwap, whole]
  obtain ⟨ts, swapped⟩ := swap
  by_cases swaps : flags.endianSwapAll = true ∧ encoding ≠ .char
  · exact ⟨_, by simp only [transforms, if_pos swaps, swapped]; rfl⟩
  · exact ⟨_, by simp only [transforms, if_neg swaps]; rfl⟩

/-! ## Markers -/

/-- A disguise is what the transforms of a byte field make into the bytes. -/
theorem Engine.disguise_ok {flags : Flags} {bytes : List UInt8} {needle : Bits} :
    disguise flags bytes = .ok needle ↔ ∃ ts, flags.transforms 0 (8 * bytes.length) .bytes = .ok ts
      ∧ Transform.onAll? ts needle = some (Bits.ofBytes bytes) := by
  have length : (Storage.ofBytes bytes).length = 8 * bytes.length := Bits.length_ofBytes bytes
  simp only [disguise, length, except_bind_ok, except_pure_ok, Storage.applyAll_ok]
  constructor
  · rintro ⟨ts, asked, plain, ⟨applied, _⟩, rfl⟩
    have undone := Transform.onAll?_reverse applied
    rw [List.reverse_reverse] at undone
    exact ⟨ts, asked, undone⟩
  · rintro ⟨ts, asked, applied⟩
    exact ⟨ts, asked, ⟨needle, 0, Nat.zero_le _⟩, ⟨Transform.onAll?_reverse applied, rfl⟩, rfl⟩

/-- A disguise is as long as the bytes. -/
theorem Engine.length_of_disguise {flags : Flags} {bytes : List UInt8} {needle : Bits}
    (h : disguise flags bytes = .ok needle) : needle.length = 8 * bytes.length := by
  obtain ⟨_, _, applied⟩ := disguise_ok.mp h
  rw [← Bits.length_ofBytes bytes, Transform.length_of_onAll? applied]

/-- Every byte string has a disguise. -/
theorem Engine.exists_disguise (flags : Flags) (bytes : List UInt8) : ∃ needle, disguise flags bytes = .ok needle := by
  have length : (Bits.ofBytes bytes).length = 8 * bytes.length := Bits.length_ofBytes bytes
  obtain ⟨ts, asked⟩ := flags.exists_transforms 0 .bytes (Nat.mul_mod_right 8 bytes.length)
  obtain ⟨needle, undone⟩ := @Transform.exists_onAll? ts.reverse (Bits.ofBytes bytes) fun t ht =>
    (Flags.isWindow asked t (List.mem_reverse.mp ht)).region?_isSome (by omega)
  have applied := Transform.onAll?_reverse undone
  rw [List.reverse_reverse] at applied
  exact ⟨needle, disguise_ok.mpr ⟨ts, asked, applied⟩⟩

namespace Storage

/-- Where a piece is found it stands. -/
theorem split_of_find? {s : Storage} {piece : Bits} {first found : Nat} {last : Bool}
    (h : s.find? piece first last = some found) :
    s.bits = s.bits.take found ++ piece ++ s.bits.drop (found + piece.length) := by
  have here : s.hasAt piece found = true := List.find?_some h
  rw [hasAt, List.isPrefixOf_iff_prefix] at here
  obtain ⟨back, rest⟩ := here
  have behind : s.bits.drop (found + piece.length) = back := by
    rw [← List.drop_drop, ← rest, List.drop_left]
  rw [behind, List.append_assoc, rest, List.take_append_drop]

end Storage

namespace Decoder

variable {e e' : Engine} {bytes : List UInt8} {needle back : Bits}

/-- Where a marker stands in disguise its bytes are read, and stand there from then on. -/
theorem readBits_disguised (disguised : Engine.disguise e.flags bytes = .ok needle)
    (here : e.storage.bits = e.storage.bits.take e.cursor ++ needle ++ back) :
    ∃ e', readBits .bytes (8 * bytes.length) e = .ok (Bits.ofBytes bytes) e'
      ∧ e'.storage.bits = e.storage.bits.take e.cursor ++ Bits.ofBytes bytes ++ back
      ∧ e'.cursor = e.cursor + 8 * bytes.length := by
  obtain ⟨ts, asked, applied⟩ := Engine.disguise_ok.mp disguised
  have length : needle.length = 8 * bytes.length := Engine.length_of_disguise disguised
  have front : (e.storage.bits.take e.cursor).length = e.cursor := by
    rw [List.length_take]
    exact Nat.min_eq_left e.storage.cursor_le
  have enough : e.cursor + 8 * bytes.length ≤ e.storage.bits.length := by
    have total := congrArg List.length here
    simp only [List.length_append, front, length] at total
    omega
  have asked' : e.flags.transforms e.cursor (8 * bytes.length) .bytes = .ok (ts.map (Transform.shift e.cursor)) := by
    have shifted := Flags.transforms_shift e.flags 0 e.cursor (8 * bytes.length) .bytes
    rw [asked, Nat.zero_add] at shifted
    exact shifted
  have within : ∀ t ∈ ts, Transform.Within 0 needle.length t := by
    intro t ht
    have := Flags.within asked t ht
    rwa [Nat.zero_add, ← length] at this
  have applied' : Transform.onAll? (ts.map (Transform.shift e.cursor)) e.storage.bits
      = some (e.storage.bits.take e.cursor ++ Bits.ofBytes bytes ++ back) := by
    have shifted := @Transform.onAll?_shift (e.storage.bits.take e.cursor) needle back ts within
    rw [front, ← here, applied] at shifted
    exact shifted
  let after : Storage := ⟨e.storage.bits.take e.cursor ++ Bits.ofBytes bytes ++ back, e.cursor + 8 * bytes.length, by
    simp only [List.length_append, front, Bits.length_ofBytes]
    omega⟩
  have slice : Bits.ofBytes bytes = (after.bits.drop e.cursor).take (8 * bytes.length) := by
    show Bits.ofBytes bytes
      = ((e.storage.bits.take e.cursor ++ Bits.ofBytes bytes ++ back).drop e.cursor).take (8 * bytes.length)
    rw [List.append_assoc, List.drop_left' front, List.take_left' (Bits.length_ofBytes bytes)]
  exact ⟨_, readBits_ok.mpr ⟨_, after, asked', applied', enough, rfl, slice, rfl⟩, rfl, rfl⟩

/-- After the gap before a marker its bytes are read, and stand where it was found. -/
theorem readField_after_gap {found : Nat} {last : Bool} {u : Unit}
    (disguised : Engine.disguise e.flags bytes = .ok needle)
    (here : e.storage.find? needle e.cursor last = some found) (gap : produceGap .bytes found e = .ok u e') :
    ∃ e'', readField .bytes (8 * bytes.length) e' = .ok (.bytes bytes) e''
      ∧ e''.storage.bits
        = e.storage.bits.take found ++ Bits.ofBytes bytes ++ e.storage.bits.drop (found + 8 * bytes.length)
      ∧ e''.cursor = found + 8 * bytes.length := by
  have ahead := Storage.le_of_find? here
  obtain ⟨s, v, _, kept, moved, _, rfl⟩ := produceGap_ok.mp gap
  have stop : s.cursor = found := by
    rw [moved]
    omega
  have length : needle.length = 8 * bytes.length := Engine.length_of_disguise disguised
  have stands : s.bits = s.bits.take s.cursor ++ needle ++ s.bits.drop (found + needle.length) := by
    rw [kept, stop]
    exact Storage.split_of_find? here
  obtain ⟨e'', read, bits, cursor⟩ := @readBits_disguised
    ({ e.emit (.seek e.cursor found) with storage := s }.produce v e.cursor) bytes needle _ disguised stands
  refine ⟨e'', readField_ok.mpr ⟨_, read, Field.decode_eq_bytes.mpr rfl⟩, ?_, ?_⟩
  · rw [bits, ← kept, ← length, ← stop]
    rfl
  · rw [cursor, ← stop]
    rfl

end Decoder

end BitTemplate
