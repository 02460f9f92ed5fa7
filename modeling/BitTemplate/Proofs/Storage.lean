import BitTemplate.Proofs.Bits
import BitTemplate.Proofs.Windows

/-!
Storage through its bits and its cursor: what applying transforms, reading and writing do to the two, and how a log
takes the data of the wire to the view and back and grows by the entries of new transforms.
-/

namespace BitTemplate

namespace Storage

theorem eq_of {s t : Storage} (bits : s.bits = t.bits) (cursor : s.cursor = t.cursor) : s = t := by
  obtain ⟨_, _, _⟩ := s
  obtain ⟨_, _, _⟩ := t
  cases bits
  cases cursor
  rfl

theorem apply_ok {s s' : Storage} {t : Transform} :
    s.apply t = .ok s' ↔ t.onBits? s.bits = some s'.bits ∧ s.cursor = s'.cursor := by
  simp only [apply]
  split
  · rename_i bits h
    constructor
    · intro applied
      cases applied
      exact ⟨h, rfl⟩
    · rintro ⟨after, cursor⟩
      rw [h] at after
      cases after
      exact congrArg Except.ok (eq_of rfl cursor)
  · rename_i h
    simp [h]

/-- Transforms change the bits and leave the cursor. -/
theorem applyAll_ok {ts : List Transform} {s s' : Storage} :
    s.applyAll ts = .ok s' ↔ Transform.onAll? ts s.bits = some s'.bits ∧ s.cursor = s'.cursor := by
  induction ts generalizing s with
  | nil =>
    constructor
    · intro h
      cases h
      exact ⟨rfl, rfl⟩
    · rintro ⟨bits, cursor⟩
      exact congrArg Except.ok (eq_of (Option.some.inj bits) cursor)
  | cons t ts ih =>
    have first : s.applyAll (t :: ts) = s.apply t >>= fun s => s.applyAll ts := rfl
    rw [first, except_bind_ok, Transform.onAll?_cons]
    simp only [ih, apply_ok, Option.bind_eq_some_iff]
    constructor
    · rintro ⟨one, ⟨h, cursor⟩, rest, cursor'⟩
      exact ⟨⟨one.bits, h, rest⟩, cursor.trans cursor'⟩
    · rintro ⟨⟨bits, h, rest⟩, cursor⟩
      have bound : s.cursor ≤ bits.length := by
        rw [Transform.length_of_onBits? h]
        exact s.cursor_le
      exact ⟨⟨bits, s.cursor, bound⟩, ⟨h, rfl⟩, rest, cursor⟩

/-- Transforms that can be applied to the bits of a storage can be applied to the storage. -/
theorem exists_applyAll {s : Storage} {ts : List Transform} {bits : Bits} (h : Transform.onAll? ts s.bits = some bits) :
    ∃ after, s.applyAll ts = .ok after ∧ after.bits = bits ∧ after.cursor = s.cursor := by
  have bound : s.cursor ≤ bits.length := by
    rw [Transform.length_of_onAll? h]
    exact s.cursor_le
  exact ⟨⟨bits, s.cursor, bound⟩, applyAll_ok.mpr ⟨h, rfl⟩, rfl, rfl⟩

theorem read_ok {s s' : Storage} {width : Nat} {bits : Bits} :
    s.read width = .ok (bits, s') ↔ s.cursor + width ≤ s.bits.length ∧ bits = (s.bits.drop s.cursor).take width
      ∧ s'.bits = s.bits ∧ s'.cursor = s.cursor + width := by
  by_cases enough : s.cursor + width ≤ s.bits.length
  · simp only [read, dif_pos enough, Except.ok.injEq, Prod.mk.injEq]
    constructor
    · rintro ⟨rfl, rfl⟩
      exact ⟨enough, rfl, rfl, rfl⟩
    · rintro ⟨_, rfl, bits, cursor⟩
      exact ⟨rfl, eq_of bits.symm cursor.symm⟩
  · simp [read, enough]

theorem require_ok {s : Storage} {width : Nat} {u : Unit} :
    s.require width = .ok u ↔ s.cursor + width ≤ s.bits.length := by
  have := s.cursor_le
  by_cases enough : width ≤ s.remaining
  · simp only [require, if_pos enough, true_iff]
    simp only [remaining, length] at enough
    omega
  · simp only [require, if_neg enough, reduceCtorEq, false_iff]
    simp only [remaining, length] at enough
    omega

/-- Bits written at the end come after those that are there. -/
theorem write_at_end {s : Storage} (h : s.cursor = s.bits.length) (bits : Bits) :
    (s.write bits).bits = s.bits ++ bits := by
  simp [write, h]

@[simp] theorem cursor_write (s : Storage) (bits : Bits) : (s.write bits).cursor = s.cursor + bits.length := rfl

/-- The places of a search are the byte boundaries from its start on at which the piece still fits. -/
theorem mem_places {length piece first position : Nat} :
    position ∈ places length piece first ↔ first ≤ position ∧ position % 8 = 0 ∧ position + piece ≤ length := by
  have aligned := Bits.add_padding_mod first
  have next := Bits.padding_lt first
  unfold places
  simp only
  split
  · rw [List.mem_map]
    constructor
    · rintro ⟨k, small, rfl⟩
      rw [List.mem_range] at small
      omega
    · intro fits
      exact ⟨(position - (first + Bits.padding first)) / 8, List.mem_range.mpr (by omega), by omega⟩
  · simp only [List.not_mem_nil, false_iff]
    omega

theorem mem_places_of_find? {s : Storage} {piece : Bits} {first found : Nat} {last : Bool}
    (h : s.find? piece first last = some found) : found ∈ places s.length piece.length first := by
  have member := List.mem_of_find?_eq_some h
  cases last with
  | true => exact List.mem_reverse.mp member
  | false => exact member

/-- A search finds nothing before the position at which it starts. -/
theorem le_of_find? {s : Storage} {piece : Bits} {first found : Nat} {last : Bool}
    (h : s.find? piece first last = some found) : first ≤ found :=
  (mem_places.mp (mem_places_of_find? h)).1

theorem aligned_of_find? {s : Storage} {piece : Bits} {first found : Nat} {last : Bool}
    (h : s.find? piece first last = some found) : found % 8 = 0 :=
  (mem_places.mp (mem_places_of_find? h)).2.1

end Storage

/-! ## Logs -/

namespace Log

/-- The transforms of a log, oldest first. -/
def transforms (log : Log) : List Transform :=
  (log.map (·.transform)).reverse

/-- The view that the transforms of a log make of the data of the wire. -/
def replay? (log : Log) (wire : Bits) : Option Bits :=
  Transform.onAll? log.transforms wire

@[simp] theorem replay?_nil (wire : Bits) : replay? [] wire = some wire := rfl

theorem transforms_append (newer older : Log) : transforms (newer ++ older) = older.transforms ++ newer.transforms := by
  simp [transforms]

theorem replay?_append (newer older : Log) (wire : Bits) :
    replay? (newer ++ older) wire = (older.replay? wire).bind (Transform.onAll? newer.transforms) := by
  rw [replay?, transforms_append, Transform.onAll?_append]
  rfl

/-- The data of the wire comes back when the log is undone newest first. -/
theorem undo_eq_some_iff {log : Log} {view wire : Bits} :
    Transform.onAll? (log.map (·.transform)) view = some wire ↔ log.replay? wire = some view := by
  constructor
  · intro h
    exact Transform.onAll?_reverse h
  · intro h
    have := Transform.onAll?_reverse h
    rwa [transforms, List.reverse_reverse] at this

theorem length_of_replay? {log : Log} {wire view : Bits} (h : log.replay? wire = some view) :
    view.length = wire.length :=
  Transform.length_of_onAll? h

/-- The entries of the given transforms, newest first. -/
def entries (flatIndex : Nat) (ts : List Transform) : Log :=
  (ts.map fun t => ⟨flatIndex, t⟩).reverse

@[simp] theorem transforms_entries (flatIndex : Nat) (ts : List Transform) :
    (entries flatIndex ts).transforms = ts := by
  simp [entries, transforms, Function.comp_def]

theorem entries_append (flatIndex : Nat) (first second : List Transform) :
    entries flatIndex (first ++ second) = entries flatIndex second ++ entries flatIndex first := by
  simp [entries]

/-- A log that grew by transforms which keep the first `count` bits, under a condition on the sums of their windows. -/
def Grows (inWord : Prop) (count : Nat) (log after : Log) : Prop :=
  ∃ newer : Log, after = newer ++ log ∧ (inWord → Transform.Keeps count newer.transforms)

theorem Grows.refl (inWord : Prop) (count : Nat) (log : Log) : Grows inWord count log log :=
  ⟨[], rfl, fun _ => Transform.Keeps.nil count⟩

theorem Grows.trans {inWord : Prop} {count later : Nat} {log between after : Log} (first : Grows inWord count log between)
    (second : Grows inWord later between after) (le : count ≤ later) : Grows inWord count log after := by
  obtain ⟨newer, rfl, keeps⟩ := first
  obtain ⟨newest, rfl, keeps'⟩ := second
  refine ⟨newest ++ newer, by rw [List.append_assoc], fun sums => ?_⟩
  rw [transforms_append]
  exact (keeps sums).append ((keeps' sums).mono le)

theorem Grows.mono {inWord stronger : Prop} {count : Nat} {log after : Log} (h : Grows inWord count log after)
    (implies : stronger → inWord) : Grows stronger count log after := by
  obtain ⟨newer, grown, keeps⟩ := h
  exact ⟨newer, grown, fun sums => keeps (implies sums)⟩

theorem Grows.length_le {inWord : Prop} {count : Nat} {log after : Log} (h : Grows inWord count log after) :
    log.length ≤ after.length := by
  obtain ⟨newer, rfl, _⟩ := h
  simp

theorem Grows.entries {inWord : Prop} {count : Nat} {ts : List Transform} (keeps : inWord → Transform.Keeps count ts)
    (flatIndex : Nat) (log : Log) : Grows inWord count log (Log.entries flatIndex ts ++ log) :=
  ⟨_, rfl, by rwa [transforms_entries]⟩

end Log

end BitTemplate
